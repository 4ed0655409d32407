import Blockwork.Proofs.Lowering.Chains

/-! # Whole programs

A chain starts and ends without open scopes, a function that is finished keeps the discipline as a whole,
and so do all functions of a program that compiles. -/

namespace Blockwork.Compile

def mainBegun (g : Globals) : LowerState :=
  { startState g 0 with
    scopes := { rootScopes := #[⟨1, false⟩] }
    code := #[.entry 0 .rootSave []]
    nextReg := 1 }

theorem beginMain_run (env : LowerEnv) (g : Globals) : beginMain env (startState g 0) = .ok () (mainBegun g) := rfl

end Blockwork.Compile

namespace Blockwork.Flow

open Lower Compile

variable {C : Context}
variable {id : String} {p : Program}

/-! ### Functions without open scopes -/

/-- A function without open scopes: what follows its saved mark keeps the discipline. -/
structure Whole (C : Context) (s : LowerState) (pt : Point) : Prop where
  code : ∃ d seg, s.code.toList = .entry d .rootSave [] :: seg ∧ C.rules.params ≤ d ∧
    Flows C.rules (roomAt C s) (.body (.start C.rules C.cells)) seg pt
  asks : C.rules.main = false → s.code.toList[1]? = some .poll
  top : ∀ f, pt = .body f → f.level = .top
  roots : stack s.scopes.rootScopes = [⟨1, required s⟩]
  fit : Fit C s pt

theorem Ready.whole {control : List (OpenScope Body)} (h : Ready C s pt) (hcontrol : stack s.scopes.control = control)
    (hc : Outermost C.env.kind control) : Whole C s pt := by
  obtain ⟨pre, seg, roots, start, hcode, hroots, hnest, hflow, hsub⟩ := h.nest
  generalize stack s.scopes.variableFrames = frames, stack s.scopes.dirtyStack = marks at hnest
  rw [hcontrol] at hnest
  cases hnest with
  | @outermost _ d _ hd =>
    refine ⟨⟨d, seg, hcode, hd, hflow⟩, h.asks, fun f hf => ?_, hroots, h.fit⟩
    subst hf
    exact hsub.2.symm
  | scope =>
    generalize C.env.kind = kind at hc
    cases hc

def Facts.cellsOnly (f : Facts) : Facts :=
  { f with
    regs := fun _ => none
    places := fun
      | .global i => f.places (.global i)
      | .slot _ => none }

def Point.cellsOnly : Point → Point
  | .body f => .body f.cellsOnly
  | pt => pt

theorem Facts.cellsOnly_weaker (f : Facts) : f.cellsOnly.Weaker f := by
  refine ⟨⟨nofun, fun pl heap hp => ?_⟩, rfl, rfl⟩
  cases pl with
  | slot => cases hp
  | global => exact hp

theorem Visible.cellsOnly (h : Visible pt v) (hv : Listed cells v) : Visible pt.cellsOnly v := by
  intro pl hpl
  obtain ⟨ty, hty, hp⟩ := h pl hpl
  obtain ⟨i, -, rfl, -, -⟩ := hv pl hpl
  refine ⟨ty, hty, ?_⟩
  cases pt <;> exact hp

theorem Fit.reset (h : Fit C s pt) : Fit C { s with scopes := s.scopes.resetChain } pt.cellsOnly where
  params := h.params
  point := by
    cases pt with
    | dead => trivial
    | left => exact h.point
    | body =>
      refine ⟨nofun, fun pl heap hp => ?_, h.bounded.fresh⟩
      cases pl with
      | slot => cases hp
      | global => exact h.bounded.places _ heap hp
  slots := h.slots
  used := Nat.zero_le _
  roots := h.roots
  locals := fun v hv => absurd hv (Array.not_mem_empty v)
  globals := fun v hv => (h.globals v hv).cellsOnly (h.table v hv)
  cells := h.cells
  table := h.table

theorem Whole.reset (h : Whole C s pt) (hmain : C.env.kind = .main) :
    Ready C { s with scopes := s.scopes.resetChain } pt.cellsOnly := by
  obtain ⟨d, seg, hcode, hd, hflow⟩ := h.code
  have hcells : Flows C.rules (roomAt C s) (.body (.start C.rules C.cells)) seg pt.cellsOnly := by
    cases pt with
    | dead | left => exact hflow
    | body f => exact hflow.weaken_end f.cellsOnly_weaker
  have hstart : (Point.body (.start C.rules C.cells)).Sub pt.cellsOnly := by
    cases pt with
    | dead => trivial
    | left => exact h.fit.point.elim
    | body f =>
      refine ⟨⟨fun r w hr => ?_, fun pl heap hp => ?_⟩, (h.top f rfl).symm⟩
      · cases hr
      cases pl with
      | slot => cases hp
      | global => simp only [Facts.start, C.main.mpr hmain, if_true] at hp; cases hp
  exact
    { nest := ⟨[.entry d .rootSave []], seg, [], .body (.start C.rules C.cells), hcode, h.roots,
        .outermost (hmain ▸ .main) hd, hcells, hstart⟩
      height := Nat.le_refl _
      fit := h.fit.reset
      opening := rfl
      closing := rfl
      dirty := fun hd => by cases hd
      asks := h.asks }

theorem Ready.outermost (h : Ready C s pt) (hback : ∀ loc body, s.scopes.control.back? ≠ some ⟨loc, .body body⟩) :
    Outermost C.env.kind (stack s.scopes.control) := by
  obtain ⟨pre, seg, roots, start, -, -, hnest, -, -⟩ := h.nest
  generalize stack s.scopes.variableFrames = frames, stack s.scopes.dirtyStack = marks,
    hcontrol : stack s.scopes.control = control at hnest ⊢
  cases hnest with
  | outermost hc => exact hc
  | scope => exact absurd (back?_of_stack hcontrol) (hback _ _)

def chainClosed (s : LowerState) : LowerState :=
  { s with scopes := { s.scopes with control := s.scopes.control.pop } }

def closesChain (kind : FunctionKind) (innermost : Option (OpenScope Body)) : Bool :=
  match kind, innermost with
  | .main, none => true
  | .user _, some ⟨_, .function⟩ => true
  | _, _ => false

theorem closeChain_eq (index : Nat) (env : LowerEnv) (s : LowerState) : closeChain index env s =
      (match env.kind, s.scopes.control.back? with
        | .main, none => pure ()
        | .user _, some ⟨_, .function⟩ => pure ()
        | _, some o => fail .unterminated o.loc
        | .user _, none => fail .invalidControl ⟨index, [0]⟩ : Lower Unit) env (chainClosed s) := rfl

theorem closeChain_run (index : Nat) (env : LowerEnv) (h : closesChain env.kind s.scopes.control.back? = true) :
    closeChain index env s = .ok () (chainClosed s) := by
  rw [closeChain_eq]
  unfold closesChain at h
  split at h
  next hkind hback => rw [hkind, hback]; rfl
  next hkind hback => rw [hkind, hback]; rfl
  · cases h

theorem closeChain_ok (h : closeChain index env s = .ok u t) :
    closesChain env.kind s.scopes.control.back? = true ∧ t = chainClosed s := by
  rw [closeChain_eq] at h
  cases hkind : env.kind <;> rcases hback : s.scopes.control.back? with _ | ⟨_, _ | _⟩ <;> rw [hkind, hback] at h <;>
    first | exact ⟨rfl, (pure_ok h).2⟩ | exact (fail_ok h).elim

theorem closesChain_body (kind : FunctionKind) : closesChain kind (some ⟨loc, .body body⟩) = false := by
  cases kind <;> rfl

theorem closeChain_whole (h : Ready C s pt) (hx : closeChain index C.env s = .ok u s') : Whole C s' pt := by
  obtain ⟨hcloses, rfl⟩ := closeChain_ok hx
  have hwhole := h.whole rfl (h.outermost fun loc body hb => by
    rw [hb, closesChain_body] at hcloses
    cases hcloses)
  exact
    { hwhole with
      fit := hwhole.fit.scopes rfl rfl rfl hwhole.fit.roots }

theorem chain_whole (h : Whole C s pt) (hmain : C.env.kind = .main) (hc : ∀ b ∈ c.blocks, C.rules.AdmitsBlock b)
    (hx : chain index c C.env s = .ok u s') : ∃ cells pt', Whole (C.withCells cells) s' pt' := by
  obtain ⟨⟨⟩, s₁, hreset, hrest⟩ := bind_ok hx
  obtain rfl := onScopes_ok hreset
  obtain ⟨⟨⟩, s₂, hblocks, hclose⟩ := bind_ok hrest
  obtain ⟨cells, pt', hready, -⟩ := blocks_ready (h.reset hmain) (fun _ => hmain) hc hblocks
  exact ⟨cells, pt', closeChain_whole hready hclose⟩

/-! ### Starting and finishing -/

theorem fit_start (hparams : C.rules.params ≤ s.nextReg) (hslots : s.scopes.slots = #[])
    (hused : s.scopes.slotsUsed = 0) (hlocals : s.scopes.locals = #[]) (hroots : 0 < s.scopes.rootScopes.size)
    (hcells : C.cells.length = s.cells) (htable : ∀ v ∈ s.globals, Listed C.cells v)
    (hmain : C.rules.main = true → s.globals = #[]) : Fit C s (.body (.start C.rules C.cells)) where
  params := hparams
  point := by
    refine ⟨nofun, fun pl heap hp => ?_, rfl⟩
    cases pl with
    | slot => cases hp
    | global i =>
      have hcell : C.cells[i]? = some heap := by
        simp only [Facts.start] at hp
        split at hp
        · cases hp
        · exact hp
      show i < s.cells
      rw [← hcells]
      exact (List.getElem?_eq_some_iff.mp hcell).1
  slots := fun i j hij => by simp [hslots] at hij
  used := by simp [hslots, hused]
  roots := hroots
  locals := fun v hv => by simp [hlocals] at hv
  globals := fun v hv pl hpl => by
    obtain ⟨i, ty, rfl, hty, hcell⟩ := htable v hv pl hpl
    refine ⟨ty, hty, ?_⟩
    have huser : C.rules.main = false := by
      cases hm : C.rules.main with
      | false => rfl
      | true =>
        rw [hmain hm] at hv
        exact absurd hv (Array.not_mem_empty v)
    show (if C.rules.main = true then none else C.cells[i]?) = _
    rw [huser]
    exact hcell
  cells := hcells
  table := htable

theorem resolve_builtin (h : Builtin.find? id = some (b, least)) : resolve id loc env s = .ok (.builtin b least) s := by
  simp only [resolve, bind, ReaderT.bind, EStateM.bind, read, h]
  rfl

def begun (s : LowerState) (loc : Location) : LowerState :=
  { s with
    scopes := { control := #[⟨loc, .function⟩], rootScopes := #[⟨1, false⟩] }
    code := #[.entry s.nextReg .rootSave [], .poll]
    nextReg := s.nextReg + 1 }

theorem beginFunction_run (loc : Location) (env : LowerEnv) (hkind : env.kind = .user name) (hscopes : s.scopes = {})
    (hcode : s.code = #[]) : beginFunction (.blockdef id) loc env s = .ok () { s with
      scopes := { opening := some .function, rootScopes := #[⟨1, false⟩] }
      code := #[.entry s.nextReg .rootSave [], .poll]
      nextReg := s.nextReg + 1 } := by
  obtain ⟨scopes, code, nextReg, globals, cells⟩ := s
  subst hscopes hcode
  have hrun : ∀ s, beginFunction (.blockdef id) loc env s = (do
      perform .rootSave []
      openRoots loc
      poll
      onScopes (·.openFrame .function) : Lower Unit) env s := by
    intro s
    rw [beginFunction, bind_run (show (read : Lower LowerEnv) env s = .ok env s from rfl), hkind]
  rw [hrun]
  rfl

theorem head_run (index : Nat) (env : LowerEnv) (hid : b.id = "define_block") (hargs : b.args = [.blockdef id])
    (hkind : env.kind = .user name) (hscopes : s.scopes = {}) (hcode : s.code = #[]) :
    block b index 0 env s = .ok () (begun s ⟨index, [0]⟩) := by
  have hfind : Builtin.find? "define_block" = some (.hat .defineBlock, 1) := by decide
  have hargv : arguments b.args ⟨index, [0]⟩ 0 env s = .ok [.blockdef id] s := by
    rw [hargs]
    rfl
  have hrequire : requireArguments b.id 1 1 ⟨index, [0]⟩ env s = .ok () s := rfl
  rw [block, hid, bind_run (resolve_builtin hfind)]
  show hat .defineBlock 1 b ⟨index, [0]⟩ env s = _
  rw [hat, bind_run hargv]
  show (requireArguments b.id 1 1 ⟨index, [0]⟩ >>= fun _ => beginFunction (.blockdef id) ⟨index, [0]⟩ >>= fun _ =>
    settle ⟨index, [0]⟩ >>= fun _ => tryScopes (·.pushOpened ⟨index, [0]⟩) >>= fun _ => pure () : Lower Unit)
      env s = _
  rw [bind_run hrequire, bind_run (beginFunction_run ⟨index, [0]⟩ env hkind hscopes hcode),
    bind_run (settle_clean rfl env)]
  rfl

theorem head_ready (hid : b.id = "define_block") (hargs : b.args = [.blockdef id]) (hkind : C.env.kind = .user name)
    (hscopes : s.scopes = {}) (hcode : s.code = #[]) (hparams : C.rules.params ≤ s.nextReg)
    (hcells : C.cells.length = s.cells) (htable : ∀ v ∈ s.globals, Listed C.cells v)
    (hx : block b index 0 C.env s = .ok u s') : Ready C s' (.body (.start C.rules C.cells)) := by
  cases (head_run index C.env hid hargs hkind hscopes hcode).symm.trans hx
  have hfit : Fit C (begun s ⟨index, [0]⟩) (.body (.start C.rules C.cells)) := by
    refine fit_start (Nat.le_succ_of_le hparams) rfl rfl rfl Nat.one_pos hcells htable fun hm => absurd hm ?_
    rw [C.user hkind]
    exact nofun
  have hpoll : Flows C.rules (roomAt C (begun s ⟨index, [0]⟩)) (.body (.start C.rules C.cells)) [.poll]
      (.body (.start C.rules C.cells)) := .step (.poll rfl) .nil
  exact
    { nest := ⟨[.entry s.nextReg .rootSave []], [.poll], [], _, rfl, rfl,
        .outermost (hkind ▸ .user) hparams, hpoll, ⟨.refl _, rfl⟩⟩
      height := Nat.le_refl _
      fit := hfit
      opening := rfl
      closing := rfl
      dirty := nofun
      asks := fun _ => rfl }

theorem functionOk_bodyCode {d : Reg} (hd : C.rules.params ≤ d) (hr : C.rules.params ≤ r)
    (hcode : code.code = .entry d .rootSave [] :: (bodyCode framed seg ++ .entry r .rootRestore [] :: tail))
    (hflow : Flows C.rules b (.body (.start C.rules C.cells)) seg pt) (hpt : pt.Bounded s)
    (hroom : b.Le (roomOf true C.cells code)) (hbare : framed = false → b.framed = false)
    (hasks : AsksFirst C.rules seg)
    (htail : ∀ f : Facts, Flows C.rules (roomOf false C.cells code) (.left (.loose f)) tail .dead) :
    FunctionOk C.rules C.cells code := by
  have hend : Flows C.rules (roomOf false C.cells code) pt (.entry r .rootRestore [] :: tail) .dead := by
    cases pt with
    | dead => exact .dead
    | left => exact hpt.elim
    | body => exact .leave hpt.fresh hr (htail _)
  cases framed with
  | true =>
    refine .framed hd hr hcode hasks (hflow.mono hroom) ?_ (htail _)
    cases pt with
    | dead => trivial
    | left => exact hpt
    | body => exact ⟨⟨nofun, nofun⟩, hpt.fresh⟩
  | false =>
    have hroom' : b.Le (roomOf false C.cells code) :=
      ⟨fun hb => absurd ((hbare rfl).symm.trans hb) nofun, hroom.registers, hroom.slots, hroom.cells⟩
    refine .bare hd hcode (fun hmain => ?_) ((hflow.mono hroom').append hend)
    rw [bodyCode, if_neg nofun, List.head?_append, hasks hmain]
    rfl

def epilogue (kind : FunctionKind) (d : Reg) : List Instr :=
  match kind with
  | .main => [.entry d .rootRestore [], .ret none]
  | .user _ => [.entry d .rootRestore [], .entry (d + 1) .anyNothing [], .ret (some (d + 1))]

def epilogueRegs (kind : FunctionKind) : Nat :=
  match kind with
  | .main => 1
  | .user _ => 2

def ending : Lower Unit := do
  perform .rootRestore []
  match (← read).kind with
  | .main => emit (.ret none)
  | .user _ => do emit (.ret (some (← call .anyNothing [])))

theorem ending_run (env : LowerEnv) (c : LowerState) : ∃ t, ending env c = .ok () t ∧ globalsOf t = globalsOf c ∧
      codeOf t = ⟨c.nextReg + epilogueRegs env.kind, c.scopes.slots.size,
        c.code.toList ++ epilogue env.kind c.nextReg⟩ := by
  have hrun : ending env c = (match env.kind with
      | .main => emit (.ret none)
      | .user _ => do emit (.ret (some (← call .anyNothing []))) : Lower Unit) env
      { c with code := c.code.push (.entry c.nextReg .rootRestore []), nextReg := c.nextReg + 1 } := rfl
  rw [hrun]
  cases env.kind with
  | main => exact ⟨_, rfl, rfl, by simp [codeOf, epilogue, epilogueRegs]⟩
  | user name =>
    refine ⟨_, rfl, rfl, ?_⟩
    simp [codeOf, epilogue, epilogueRegs]

theorem finish_run (loc : Location) (env : LowerEnv) (hroots : stack s.scopes.rootScopes = [root])
    (hstart : root.start = front.length) (hcode : s.code.toList = front ++ seg) :
    ∃ t, finish loc env s = .ok () t ∧ globalsOf t = globalsOf s ∧
      codeOf t = ⟨s.nextReg + epilogueRegs env.kind, s.scopes.slots.size,
        front ++ bodyCode (root.required || env.keepScopes) seg ++ epilogue env.kind s.nextReg⟩ := by
  have hdepth : s.scopes.rootScopes.pop.size = 0 := by
    have hempty := congrArg List.length (stack_pop hroots)
    simpa only [stack, List.length_reverse, Array.length_toList, List.length_nil] using hempty
  let closed : LowerState := { s with
    code := front.toArray ++ (bodyCode (root.required || env.keepScopes) seg).toArray
    scopes := { s.scopes with rootScopes := s.scopes.rootScopes.pop } }
  have hrun : finish loc env s =
      (if closed.scopes.rootDepth ≠ 0 then fail .scopeOverflow loc else ending) env closed := by
    rw [finish, bind_run (closeRoots_run loc env (back?_of_stack hroots) hstart hcode), bind_run (emitAll_ok _ _)]
    rfl
  rw [hrun, if_neg (by simp [closed, Scopes.rootDepth, hdepth])]
  obtain ⟨t, ht, hglobals, hend⟩ := ending_run env closed
  refine ⟨t, ht, hglobals, hend.trans ?_⟩
  simp [closed]

theorem finish_functionOk (h : Whole C s pt) (hx : finish loc C.env s = .ok u s') :
    FunctionOk C.rules C.cells (codeOf s') ∧ globalsOf s' = globalsOf s := by
  obtain ⟨d, seg, hcode, hd, hflow⟩ := h.code
  have hfront : s.code.toList = [.entry d .rootSave []] ++ seg := hcode
  obtain ⟨t, ht, hglobals, hdone⟩ := finish_run loc C.env h.roots rfl hfront
  cases ht.symm.trans hx
  have hbare : (required s || C.env.keepScopes) = false → required s = false := fun hb =>
    (Bool.or_eq_false_iff.mp hb).1
  have hasks : AsksFirst C.rules seg := fun hmain => by
    have hsecond := h.asks hmain
    rw [hcode] at hsecond
    rw [List.head?_eq_getElem?]
    exact hsecond
  refine ⟨?_, hglobals⟩
  rw [hdone]
  cases hkind : C.env.kind with
  | main =>
    exact functionOk_bodyCode hd h.fit.params (by simp [epilogue]; rfl) hflow h.fit.point
      ⟨fun _ => rfl, Nat.le_succ _, Nat.le_refl _, List.prefix_rfl⟩ hbare hasks fun _ => .ret (C.main.mpr hkind)
  | user =>
    exact functionOk_bodyCode hd h.fit.params (by simp [epilogue]; rfl) hflow h.fit.point
      ⟨fun _ => rfl, Nat.le_trans (Nat.le_succ _) (Nat.le_succ _), Nat.le_refl _, List.prefix_rfl⟩ hbare hasks
      fun _ => .exit (.nothing (Nat.lt_succ_self _)) (.retValue (C.user hkind) rfl)

structure Tabled (cells : List Bool) (g : Compile.Globals) : Prop where
  size : cells.length = g.cells
  listed : ∀ v ∈ g.declared, Listed cells v

theorem Whole.tabled (h : Whole C s pt) : Tabled C.cells (globalsOf s) :=
  ⟨h.fit.cells, h.fit.table⟩

theorem mainBegun_whole (hmain : C.env.kind = .main) (hcells : C.cells = []) (hparams : C.rules.params = 0) :
    Whole C (mainBegun {}) (.body (.start C.rules C.cells)) := by
  have hle : C.rules.params ≤ 0 := Nat.le_of_eq hparams
  exact
    { code := ⟨0, [], rfl, hle, .nil⟩
      asks := fun hm => absurd hm (by simp [C.main.mpr hmain])
      top := fun f hf => by cases hf; rfl
      roots := rfl
      fit := fit_start (Nat.le_trans hle (Nat.zero_le _)) rfl rfl rfl Nat.one_pos (by rw [hcells]; rfl)
        (fun v hv => absurd hv (Array.not_mem_empty v)) fun _ => rfl }

theorem mainChains_cons (h : mainChains env ((index, c) :: rest) s = (none, s')) :
    ∃ t, chain index c env s = .ok () t ∧ mainChains env rest t = (none, s') := by
  rw [mainChains] at h
  cases hchain : chain index c env s with
  | error =>
    rw [hchain] at h
    cases h
  | ok u t =>
    rw [hchain] at h
    exact ⟨t, rfl, h⟩

theorem lowerMain_ok (h : lowerMain env chains = (.ok code, g)) :
    ∃ t t', mainChains env chains (mainBegun {}) = (none, t) ∧ finish ⟨0, [0]⟩ env t = .ok () t' ∧
      code = codeOf t' ∧ g = globalsOf t' := by
  simp only [lowerMain, beginMain_run] at h
  cases hchains : mainChains env chains (mainBegun {}) with
  | mk failed t =>
    rw [hchains] at h
    cases failed with
    | some => cases h
    | none =>
      cases hfinish : finish ⟨0, [0]⟩ env t with
      | error =>
        simp only [hfinish] at h
        cases h
      | ok u t' =>
        simp only [hfinish] at h
        cases h
        exact ⟨t, t', rfl, hfinish, rfl, rfl⟩

def paramsOf (env : LowerEnv) (d : Compile.Definition) : Nat :=
  match findFunction? env.functions d.blockdef with
  | some (_, f) => f.params.length
  | none => 0

def definingEnv (env : LowerEnv) (d : Compile.Definition) : LowerEnv :=
  { env with kind := .user d.blockdef }

theorem lowerDefinition_ok (hchain : p.chains[d.chain]? = some c) (h : lowerDefinition env p d g = (.ok code, g')) :
    ∃ s t, chain d.chain c (definingEnv env d) (startState g (paramsOf env d)) = .ok () s ∧
      finish ⟨d.chain, [0]⟩ (definingEnv env d) s = .ok () t ∧ code = codeOf t ∧
      g' = globalsOf t := by
  unfold lowerDefinition at h
  simp only [List.getD_eq_getElem?_getD, hchain, Option.getD_some] at h
  split at h
  next hrun =>
    cases h
    obtain ⟨⟨⟩, s, hlower, hfinish⟩ := bind_ok hrun
    exact ⟨s, _, hlower, hfinish, rfl, rfl⟩
  next => cases h

theorem lowerDefinitions_cons (h : lowerDefinitions env p (d :: rest) g = (codes, [], g')) :
    ∃ code g₁ codes', lowerDefinition env p d g = (.ok code, g₁) ∧
      lowerDefinitions env p rest g₁ = (codes', [], g') ∧ codes = code :: codes' := by
  rw [lowerDefinitions] at h
  cases hone : lowerDefinition env p d g with
  | mk r g₁ =>
    cases hrest : lowerDefinitions env p rest g₁ with
    | mk codes' more =>
      obtain ⟨errors, g₂⟩ := more
      simp only [hone, hrest] at h
      cases r with
      | error => cases h
      | ok code =>
        cases h
        exact ⟨code, g₁, codes', rfl, hrest, rfl⟩

theorem mainChains_whole : ∀ {chains : List (Nat × Chain)} {C : Context} {s s' : LowerState} {pt : Point},
    Whole C s pt → C.env.kind = .main → (∀ x ∈ chains, ∀ b ∈ x.2.blocks, C.rules.AdmitsBlock b) →
    mainChains C.env chains s = (none, s') → ∃ cells pt', Whole (C.withCells cells) s' pt'
  | [], C, s, s', pt, h, _, _, hx => by
    cases hx
    exact ⟨C.cells, pt, h⟩
  | (index, c) :: rest, C, s, s', pt, h, hmain, hallowed, hx => by
    obtain ⟨t, hchain, hrest⟩ := mainChains_cons hx
    obtain ⟨cells, pt₁, hwhole⟩ := chain_whole h hmain (hallowed _ List.mem_cons_self) hchain
    exact mainChains_whole (C := C.withCells cells) hwhole hmain
      (fun x hx => hallowed x (List.mem_cons_of_mem _ hx)) hrest

theorem lowerMain_functionOk (hmain : C.env.kind = .main) (hcells : C.cells = []) (hparams : C.rules.params = 0)
    (hallowed : ∀ x ∈ chains, ∀ b ∈ x.2.blocks, C.rules.AdmitsBlock b) (hx : lowerMain C.env chains = (.ok code, g)) :
    ∃ cells, FunctionOk C.rules cells code ∧ Tabled cells g := by
  obtain ⟨t, t', hchains, hfinish, rfl, rfl⟩ := lowerMain_ok hx
  obtain ⟨cells, pt, hwhole⟩ := mainChains_whole (mainBegun_whole hmain hcells hparams) hmain hallowed hchains
  obtain ⟨hok, hglobals⟩ := finish_functionOk hwhole hfinish
  rw [hglobals]
  exact ⟨cells, hok, hwhole.tabled⟩

theorem resetChain_new {s : LowerState} (hscopes : s.scopes = {}) : { s with scopes := s.scopes.resetChain } = s := by
  cases s
  subst hscopes
  rfl

theorem definition_iff (hscopes : s.scopes = {}) : chain index ⟨b :: rest⟩ env s = .ok u t ↔ ∃ s₁ s₂,
      block b index 0 env s = .ok () s₁ ∧ blocks index rest 1 env s₁ = .ok () s₂ ∧ closeChain index env s₂ = .ok u t := by
  have hreset : onScopes .resetChain env s = .ok () s := congrArg (EStateM.Result.ok ()) (resetChain_new hscopes)
  rw [chain, bind_run hreset]
  constructor
  · intro hx
    obtain ⟨⟨⟩, s₂, hall, hclose⟩ := bind_ok hx
    obtain ⟨⟨⟩, s₁, hhead, hrest⟩ := bind_ok hall
    exact ⟨s₁, s₂, hhead, hrest, hclose⟩
  · rintro ⟨s₁, s₂, hhead, hrest, hclose⟩
    exact (bind_run ((bind_run hhead).trans hrest)).trans hclose

theorem definition_whole (hid : b.id = "define_block") (hargs : b.args = [.blockdef id])
    (hkind : C.env.kind = .user name) (hscopes : s.scopes = {}) (hcode : s.code = #[])
    (hparams : C.rules.params ≤ s.nextReg) (htabled : Tabled C.cells (globalsOf s))
    (hallowed : ∀ b ∈ rest, C.rules.AdmitsBlock b) (hx : chain index ⟨b :: rest⟩ C.env s = .ok u s') :
    ∃ pt, Whole C s' pt := by
  obtain ⟨s₁, s₂, hhead, hrest, hclose⟩ := (definition_iff hscopes).mp hx
  have hready := head_ready hid hargs hkind hscopes hcode hparams htabled.size htabled.listed hhead
  obtain ⟨cells, pt, hready', hcells⟩ := blocks_ready hready (fun h => absurd h (Nat.succ_ne_zero 0)) hallowed hrest
  obtain rfl : cells = C.cells := by
    refine hcells ?_
    rw [hkind]
    exact nofun
  exact ⟨pt, closeChain_whole hready' hclose⟩

theorem lowerDefinition_functionOk (henv : C.env = { env with kind := .user d.blockdef })
    (hfind : findFunction? env.functions d.blockdef = some (k, f)) (hparams : C.rules.params = f.params.length)
    (htabled : Tabled C.cells g) (hchain : p.chains[d.chain]? = some ⟨b :: rest⟩) (hid : b.id = "define_block")
    (hargs : b.args = [.blockdef id]) (hallowed : ∀ b ∈ rest, C.rules.AdmitsBlock b)
    (hx : lowerDefinition env p d g = (.ok code, g')) :
    FunctionOk C.rules C.cells code ∧ Tabled C.cells g' := by
  have hcount : paramsOf env d = f.params.length := by
    simp only [paramsOf, hfind]
  have hkind : C.env.kind = .user d.blockdef := by rw [henv]
  obtain ⟨s, t, hlower, hfinish, rfl, rfl⟩ := lowerDefinition_ok hchain hx
  rw [definingEnv, ← henv, hcount] at hlower
  rw [definingEnv, ← henv] at hfinish
  obtain ⟨pt, hwhole⟩ := definition_whole (s := startState g f.params.length) hid hargs hkind
    rfl rfl (Nat.le_of_eq hparams) htabled hallowed hlower
  obtain ⟨hok, hglobals⟩ := finish_functionOk hwhole hfinish
  rw [hglobals]
  exact ⟨hok, hwhole.tabled⟩

/-! ### Declarations -/

structure Declares (p : Program) (c : Chain) (d : FunctionDecl) : Prop where
  named : Compile.namedBlockdef? c = some d.id
  template : ∃ t, p.findBlockdef? d.id = some t ∧ t.params = d.params
  room : d.params.length ≤ maxParameters

theorem declareBlock_ok {d : FunctionDecl} (h : declareBlock p declared index id = .ok d) :
    d.id = id ∧ id ∉ declared.map FunctionDecl.id ∧ (∃ t, p.findBlockdef? id = some t ∧ t.params = d.params) ∧
      d.params.length ≤ maxParameters := by
  unfold declareBlock at h
  cases hfind : p.findBlockdef? id with
  | none =>
    rw [hfind] at h
    cases h
  | some t =>
    simp only [hfind] at h
    split at h
    · cases h
    · rename_i hany
      split at h
      · cases h
      next hroom =>
        cases h
        refine ⟨rfl, fun hmem => hany ?_, ⟨t, rfl, rfl⟩, Nat.le_of_not_lt hroom⟩
        obtain ⟨e, he, heq⟩ := List.mem_map.mp hmem
        exact List.any_eq_true.mpr ⟨e, he, by simp [heq]⟩

theorem declareFrom_cons (h : declareFrom p ((index, c) :: rest) declared = .ok (functions, definitions)) :
    ∃ new definitions' name, declareFrom p rest (declared ++ new) = .ok (functions, definitions') ∧
      definitions = ⟨index, name⟩ :: definitions' ∧ (namedBlockdef? c = none → new = []) ∧
      ∀ id, namedBlockdef? c = some id → name = id ∧ ∃ d, new = [d] ∧ declareBlock p declared index id = .ok d := by
  rw [declareFrom] at h
  cases hname : namedBlockdef? c with
  | none =>
    simp only [hname] at h
    cases hrest : declareFrom p rest declared with
    | error =>
      rw [hrest] at h
      cases h
    | ok r =>
      rw [hrest] at h
      cases h
      exact ⟨[], r.2, "", by rw [List.append_nil]; exact hrest, rfl, fun _ => rfl, fun _ hid => by cases hid⟩
  | some id =>
    simp only [hname] at h
    cases hd : declareBlock p declared index id with
    | error =>
      rw [hd] at h
      cases h
    | ok d =>
      rw [hd] at h
      cases hrest : declareFrom p rest (declared ++ [d]) with
      | error =>
        simp only [hrest, bind, Except.bind] at h
        cases h
      | ok r =>
        simp only [hrest, bind, Except.bind] at h
        cases h
        refine ⟨[d], r.2, id, hrest, rfl, fun hnone => (by cases hnone), fun id' hid => ?_⟩
        cases hid
        exact ⟨rfl, d, rfl, hd⟩

theorem declareFrom_chains (h : declareFrom p chains declared = .ok (functions, definitions)) :
    definitions.map Definition.chain = chains.map Prod.fst := by
  induction chains generalizing declared definitions with
  | nil =>
    cases h
    rfl
  | cons x rest ih =>
    obtain ⟨new, definitions', name, hrest, rfl, -⟩ := declareFrom_cons h
    exact congrArg (List.cons x.1) (ih hrest)

theorem declareFrom_ok (hnamed : ∀ x ∈ chains, namedBlockdef? x.2 ≠ none)
    (hnodup : (declared.map FunctionDecl.id).Nodup)
    (h : declareFrom p chains declared = .ok (functions, definitions)) :
    ∃ new, functions = declared ++ new ∧ (functions.map FunctionDecl.id).Nodup ∧
      definitions = List.zipWith (fun x f => ⟨x.1, f.id⟩) chains new ∧
      List.Forall₂ (fun x f => Declares p x.2 f) chains new := by
  induction chains generalizing declared definitions with
  | nil =>
    cases h
    exact ⟨[], by simp, hnodup, rfl, .nil⟩
  | cons x rest ih =>
    obtain ⟨id, hname⟩ := Option.ne_none_iff_exists'.mp (hnamed x List.mem_cons_self)
    obtain ⟨_, definitions', name, hrest, rfl, -, hfirst⟩ := declareFrom_cons h
    obtain ⟨rfl, d, rfl, hd⟩ := hfirst id hname
    obtain ⟨rfl, hnew, htemplate, hroom⟩ := declareBlock_ok hd
    have hnodup' : ((declared ++ [d]).map FunctionDecl.id).Nodup := by
      rw [List.map_append, List.nodup_append]
      refine ⟨hnodup, by simp, fun a ha b hb => ?_⟩
      simp only [List.map_cons, List.map_nil, List.mem_singleton] at hb
      rw [hb]
      exact fun heq => hnew (heq ▸ ha)
    obtain ⟨new, hfun, hall, rfl, hdeclares⟩ := ih (fun x hx => hnamed x (List.mem_cons_of_mem _ hx)) hnodup' hrest
    exact ⟨d :: new, by rw [hfun, List.append_assoc]; rfl, hall, rfl, .cons ⟨hname, htemplate, hroom⟩ hdeclares⟩

theorem declareFrom_templates (h : declareFrom p chains declared = .ok (functions, definitions))
    (hdeclared : ∀ d ∈ declared, ∃ t, p.findBlockdef? d.id = some t ∧ t.params = d.params) :
    ∀ d ∈ functions, ∃ t, p.findBlockdef? d.id = some t ∧ t.params = d.params := by
  induction chains generalizing declared definitions with
  | nil =>
    cases h
    exact hdeclared
  | cons x rest ih =>
    obtain ⟨new, definitions', name, hrest, -, hnone, hsome⟩ := declareFrom_cons h
    refine ih hrest (List.forall_mem_append.mpr ⟨hdeclared, ?_⟩)
    cases hname : namedBlockdef? x.2 with
    | none =>
      rw [hnone hname]
      exact List.forall_mem_nil _
    | some id =>
      obtain ⟨-, d, rfl, hd⟩ := hsome id hname
      obtain ⟨rfl, -, htemplate, -⟩ := declareBlock_ok hd
      exact List.forall_mem_singleton.mpr htemplate

theorem findIdx?_of_nodup {xs : List String} (hnodup : xs.Nodup) (hi : xs[i]? = some x) :
    xs.findIdx? (· == x) = some i := by
  obtain ⟨hlt, hget⟩ := List.getElem?_eq_some_iff.mp hi
  rw [List.findIdx?_eq_some_iff_getElem]
  refine ⟨hlt, by simp [hget], fun j hj heq => ?_⟩
  have hne := List.pairwise_iff_getElem.mp hnodup j i (Nat.lt_trans hj hlt) hlt hj
  exact hne ((eq_of_beq heq).trans hget.symm)

theorem findFunction?_of_nodup (hnodup : (functions.map FunctionDecl.id).Nodup) (hf : functions[k]? = some f) :
    findFunction? functions f.id = some (k, f) := by
  have hidx : functions.findIdx? (·.id == f.id) = some k :=
    List.findIdx?_map.symm.trans (findIdx?_of_nodup hnodup (List.getElem?_map.trans (congrArg _ hf)))
  simp only [findFunction?, hidx, hf, Option.map_some]

theorem lowerDefinitions_ok {ok : Definition → FunctionCode → Prop} : ∀ {definitions : List Definition}
    {g g' : Globals} {codes : List FunctionCode}, (∀ d ∈ definitions, ∀ g code g', Tabled cells g →
      lowerDefinition env p d g = (.ok code, g') → ok d code ∧ Tabled cells g') →
    Tabled cells g → lowerDefinitions env p definitions g = (codes, [], g') → Tabled cells g' ∧
      ∀ (k : Nat) d, definitions[k]? = some d → ∃ code, codes[k]? = some code ∧ ok d code
  | [], g, g', codes, _, htabled, hx => by
    cases hx
    exact ⟨htabled, fun k d hd => by cases hd⟩
  | d :: rest, g, g', codes, hstep, htabled, hx => by
    obtain ⟨code, g₁, codes', hone, hrest, rfl⟩ := lowerDefinitions_cons hx
    obtain ⟨hok, htabled'⟩ := hstep d List.mem_cons_self g code g₁ htabled hone
    obtain ⟨hlast, hall⟩ := lowerDefinitions_ok (fun d hd => hstep d (List.mem_cons_of_mem _ hd)) htabled' hrest
    refine ⟨hlast, fun k d' hd' => ?_⟩
    cases k with
    | zero =>
      cases hd'
      exact ⟨code, rfl, hok⟩
    | succ k => exact hall k d' hd'

/-! ### Programs -/

theorem mem_chainsHeaded (h : x ∈ chainsHeaded p id) :
    p.chains[x.1]? = some x.2 ∧ ∃ b rest, x.2 = ⟨b :: rest⟩ ∧ b.id = id := by
  obtain ⟨hmem, hhead⟩ := List.mem_filter.mp h
  obtain ⟨⟨c, i⟩, hzip, rfl⟩ := List.mem_map.mp hmem
  refine ⟨List.mem_zipIdx_iff_getElem?.mp hzip, ?_⟩
  obtain ⟨blocks⟩ := c
  cases blocks with
  | nil => cases hhead
  | cons b rest => exact ⟨b, rest, rfl, eq_of_beq hhead⟩

def rulesFor (functions : List FunctionDecl) (strict steady counted : Bool) : Rules where
  main := false
  params := 0
  arity := fun i => (functions[i]?).map fun f => f.params.length
  strict := strict
  isSealed := false
  steady := steady
  counted := counted

theorem admitsBlock {c : Rules} (hstrict : c.strict = true → p.AssignsInStatements)
    (hsteady : c.steady = true → p.Steady) (hcounted : c.counted = true → p.Counted) (hc : ch ∈ p.chains)
    (hb : b ∈ ch.blocks) : c.AdmitsBlock b := by
  have hname : b.id ∈ b.names := by cases b; exact List.mem_cons_self
  have hinside : ∀ id ∈ Argument.namesIn b.args, id ∈ b.names := by
    cases b
    exact fun id hid => List.mem_cons_of_mem _ hid
  have hchance : c.steady = true → ∀ id ∈ b.names, id ≠ "random" ∧ id ≠ "unix_time" := fun hs id hid =>
    ⟨fun he => (hsteady hs ch hc b hb).1 (he ▸ hid), fun he => (hsteady hs ch hc b hb).2 (he ▸ hid)⟩
  exact
    { inside := fun id hid =>
        { strict := fun hs he => hstrict hs ch hc b hb (he ▸ hid)
          steady := fun hs => hchance hs id (hinside id hid) }
      name := fun hs => hchance hs b.id hname
      counted := fun hc => hcounted hc ch ‹ch ∈ p.chains› b hb }

def mainContext (functions : List FunctionDecl) (owners : List (String × String))
    (keep strict steady counted : Bool) : Context where
  rules := { rulesFor functions strict steady counted with main := true }
  env := ⟨.main, functions, owners, keep⟩
  cells := []
  main := by simp
  unsealed := rfl
  arity := fun i d hd => by simp only [rulesFor, hd, Option.map_some]
  params := fun id hid => by cases hid

def functionContext {functions : List FunctionDecl} {k : Nat} {f : FunctionDecl}
    (owners : List (String × String)) (keep strict steady counted : Bool) (cells : List Bool)
    (hf : findFunction? functions f.id = some (k, f)) : Context where
  rules := { rulesFor functions strict steady counted with params := f.params.length }
  env := ⟨.user f.id, functions, owners, keep⟩
  cells := cells
  main := by simp [rulesFor]
  unsealed := rfl
  arity := fun i d hd => by simp only [rulesFor, hd, Option.map_some]
  params := fun id hid i d hd => by
    cases hid
    rw [hf] at hd
    cases hd
    exact Nat.le_refl _

theorem declare_named (hnamed : ∀ x ∈ chainsHeaded p "define_block", namedBlockdef? x.2 ≠ none)
    (h : declare p = .ok (functions, definitions)) :
    definitions.length = functions.length ∧ ∀ (k : Nat) d, definitions[k]? = some d →
      ∃ f b rest, functions[k]? = some f ∧ d.blockdef = f.id ∧ findFunction? functions f.id = some (k, f) ∧
        p.chains[d.chain]? = some ⟨b :: rest⟩ ∧ b.id = "define_block" := by
  have hnil : (([] : List FunctionDecl).map FunctionDecl.id).Nodup := List.nodup_nil
  obtain ⟨new, rfl, hnodup, rfl, hdeclares⟩ := declareFrom_ok hnamed hnil h
  refine ⟨by simp [hdeclares.length_eq], fun k d hd => ?_⟩
  obtain ⟨x, f, hx, hf, rfl⟩ := List.getElem?_zipWith_eq_some.mp hd
  obtain ⟨hchain, b, rest, hblocks, hid⟩ := mem_chainsHeaded (List.mem_of_getElem? hx)
  rw [hblocks] at hchain
  exact ⟨f, b, rest, hf, rfl, findFunction?_of_nodup hnodup hf, hchain, hid⟩

theorem declare_ok (hheads : p.BareHeads) (h : declare p = .ok (functions, definitions)) :
    definitions.length = functions.length ∧ ∀ (k : Nat) d, definitions[k]? = some d →
      ∃ f, functions[k]? = some f ∧ d.blockdef = f.id ∧ findFunction? functions f.id = some (k, f) ∧
        ∃ b rest id, p.chains[d.chain]? = some ⟨b :: rest⟩ ∧ b.id = "define_block" ∧ b.args = [.blockdef id] := by
  have hnamed : ∀ x ∈ chainsHeaded p "define_block", namedBlockdef? x.2 ≠ none := by
    intro x hx hnone
    obtain ⟨hchain, b, rest, hblocks, hid⟩ := mem_chainsHeaded hx
    rw [hblocks] at hchain
    obtain ⟨id, hargs⟩ := hheads _ (List.mem_of_getElem? hchain) b rfl hid
    simp only [namedBlockdef?, Chain.head?, hblocks, List.head?_cons, Option.map_some, hargs] at hnone
    cases hnone
  obtain ⟨hlength, hdefs⟩ := declare_named hnamed h
  refine ⟨hlength, fun k d hd => ?_⟩
  obtain ⟨f, b, rest, hf, hname, hfind, hchain, hid⟩ := hdefs k d hd
  obtain ⟨id, hargs⟩ := hheads _ (List.mem_of_getElem? hchain) b rfl hid
  exact ⟨f, hf, hname, hfind, b, rest, id, hchain, hid, hargs⟩

def mainEnv (p : Program) (functions : List FunctionDecl) (keep : Bool) : LowerEnv :=
  ⟨.main, functions, Compile.paramOwners p, keep⟩

theorem compile_ok {code : ProgramCode} (h : (p.compile keep).result = .ok code) :
    ∃ functions definitions main g codes g', declare p = .ok (functions, definitions) ∧
      lowerMain (mainEnv p functions keep) (chainsHeaded p "on_start") = (.ok main, g) ∧
      lowerDefinitions (mainEnv p functions keep) p definitions g = (codes, [], g') ∧
      code = ⟨main, codes.toArray, g'.cells⟩ := by
  unfold Program.compile at h
  cases hdecl : declare p with
  | error =>
    rw [hdecl] at h
    cases h
  | ok r =>
    obtain ⟨functions, definitions⟩ := r
    simp only [hdecl] at h
    cases hmain : lowerMain (mainEnv p functions keep) (chainsHeaded p "on_start") with
    | mk main g =>
      cases hlater : lowerDefinitions (mainEnv p functions keep) p definitions g with
      | mk codes more =>
        obtain ⟨later, g'⟩ := more
        simp only [mainEnv] at hmain hlater
        simp only [hmain, hlater] at h
        cases main with
        | error => cases h
        | ok main =>
          cases later with
          | cons => cases h
          | nil =>
            cases h
            exact ⟨functions, definitions, main, g, codes, g', rfl, hmain, hlater, rfl⟩

theorem compile_programOk {code : ProgramCode} (strict steady counted : Bool) (hheads : p.BareHeads)
    (hstrict : strict = true → p.AssignsInStatements) (hsteady : steady = true → p.Steady)
    (hcounted : counted = true → p.Counted) (hx : (p.compile keep).result = .ok code) :
    ∃ functions cells, ProgramOk (rulesFor functions strict steady counted) cells code := by
  obtain ⟨functions, definitions, main, g, codes, g', hdecl, hmain, hlater, rfl⟩ := compile_ok hx
  obtain ⟨hlen, hdefs⟩ := declare_ok hheads hdecl
  have hallowed : ∀ c : Rules, c.strict = strict → c.steady = steady → c.counted = counted →
      ∀ ch ∈ p.chains, ∀ b ∈ ch.blocks, c.AdmitsBlock b := fun c hs ht hn ch hc b hb =>
    admitsBlock (hs ▸ hstrict) (ht ▸ hsteady) (hn ▸ hcounted) hc hb
  obtain ⟨cells, hmainOk, htabled⟩ :=
    lowerMain_functionOk (C := mainContext functions (paramOwners p) keep strict steady counted) rfl rfl rfl
      (fun x hx => hallowed _ rfl rfl rfl x.2 (List.mem_of_getElem? (mem_chainsHeaded hx).1)) hmain
  have hstep : ∀ d ∈ definitions, ∀ g code g', Tabled cells g →
      lowerDefinition (mainEnv p functions keep) p d g = (.ok code, g') →
      (∀ (k : Nat) f, findFunction? functions d.blockdef = some (k, f) →
        FunctionOk { rulesFor functions strict steady counted with params := f.params.length } cells code) ∧
      Tabled cells g' := by
    intro d hd g code g' htab hlower
    obtain ⟨k, hk⟩ := List.mem_iff_getElem?.mp hd
    obtain ⟨f, hf, hname, hfind, b, rest, id, hchain, hid, hargs⟩ := hdefs k d hk
    obtain ⟨hok, htab'⟩ := lowerDefinition_functionOk
      (C := functionContext (paramOwners p) keep strict steady counted cells hfind)
      (by rw [hname]; rfl) (hname ▸ hfind) rfl htab hchain hid hargs
      (fun b hb => hallowed _ rfl rfl rfl _ (List.mem_of_getElem? hchain) b (List.mem_cons_of_mem _ hb)) hlower
    refine ⟨fun k' f' hf' => ?_, htab'⟩
    rw [hname, hfind] at hf'
    cases hf'
    exact hok
  obtain ⟨htabled', hall⟩ := lowerDefinitions_ok hstep htabled hlater
  refine ⟨functions, cells, htabled'.size, hmainOk, fun i n hn => ?_⟩
  obtain ⟨f, hf, rfl⟩ := Option.map_eq_some_iff.mp hn
  have hi : i < definitions.length := by
    rw [hlen]
    exact (List.getElem?_eq_some_iff.mp hf).1
  obtain ⟨f', hf', hname, hfind, -⟩ := hdefs i _ (List.getElem?_eq_getElem hi)
  obtain ⟨fn, hfn, hok⟩ := hall i _ (List.getElem?_eq_getElem hi)
  rw [hf] at hf'
  cases hf'
  exact ⟨fn, by simpa using hfn, hok i f (hname ▸ hfind)⟩

end Blockwork.Flow

theorem Blockwork.Program.exists_code (p : Program) (keep : Bool) (P : ProgramCode → Bool)
    (h : (p.compile keep).result.toOption.any P = true) : ∃ code, (p.compile keep).result = .ok code ∧ P code = true := by
  cases hcode : (p.compile keep).result with
  | error e =>
    rw [hcode] at h
    cases h
  | ok code =>
    rw [hcode] at h
    exact ⟨code, rfl, h⟩
