import Blockwork.Proofs.Tracing.Chains
import Blockwork.Proofs.Tracing.Heads

/-! # Compiled programs
Each function of a program that compiles is described by its marks. -/

namespace Blockwork.Tracing

open Lower Typing Instr Compile
open Flow
open Trimming

variable {n : Nat}

structure Table (B : Bindings) (g : Compile.Globals) : Prop where
  globals : Matches .global (stack g.declared) B.globals
  count : g.cells = (storedIn B.globals).length
  distinct : (storedIn B.globals).Nodup
  isGlobal : ∀ x ∈ storedIn B.globals, x.isGlobal = true

theorem Fits.table (h : Fits env W F B s) : Table B (globalsOf s) :=
  ⟨h.globals, h.count.trans (congrArg List.length h.cells), h.cells ▸ h.distinct, h.cells ▸ h.isGlobal⟩

def startWorld (env : LowerEnv) (B : Bindings) (n : Nat) : World :=
  ⟨settingOf env, List.replicate n (.value .any), [], [], storedIn B.globals, 0⟩

def startFacts (n : Nat) : Facts :=
  ⟨List.range n, [], 0⟩

theorem has_replicate (h : i < n) : Has (List.replicate n (.value .any)) (List.range n) i (.value .any) :=
  ⟨by simp [h], List.mem_range.mpr h⟩

theorem Table.fits (h : Table B g) (hkind : B.main = (env.kind == .main)) (hblocks : B.blocks = [])
    (hown : B.own = []) (hmain : B.main = true → B.globals = [])
    (hparams : ∀ owner j d, env.kind = .user owner → findFunction? env.functions owner = some (j, d) →
      d.params.length ≤ n) : Fits env (startWorld env B n) (startFacts n) B (startState g n) := by
  have hlocals : B.locals = [] := by
    rw [Bindings.locals, hblocks, hown]
    rfl
  have hcells : B.main = true → storedIn B.globals = [] := fun hm => by
    rw [hmain hm]
    rfl
  exact
    { h with
      ctx := rfl
      main := hkind.symm
      kind := hkind
      next := by simp [startWorld, startState]
      params := fun owner j d hd hfind i hi => has_replicate (Nat.lt_of_lt_of_le hi (hparams owner j d hd hfind))
      accesses := .nil _
      values := List.forall_mem_nil _
      due := List.forall_mem_nil _
      locals := by
        rw [hlocals]
        exact .nil
      facts := by
        rw [hlocals]
        rfl
      frames := by
        rw [hblocks]
        rfl
      used := rfl
      slots := fun i j hj => by cases hj
      room := Nat.le_refl _
      size := rfl
      cells := rfl
      declared := fun hm => by
        show 0 = g.cells
        rw [h.count, hcells (hkind.trans hm)]
        rfl
      own := fun _ => hown
      nodup := List.nodup_nil
      young := List.forall_mem_nil _
      youngCells := fun hm y hy => by
        have hy : y ∈ storedIn B.globals := hy
        rw [hcells (hkind.trans hm)] at hy
        cases hy }

theorem mainBegun_rests (hmain : env.kind = .main) :
    ∃ W F, Resting env (startFacts 0) W F { main := true } (mainBegun {}) ∧ W.accesses = [] ∧ W.values = [] := by
  have htable : Table { main := true } {} := ⟨.nil, rfl, List.nodup_nil, List.forall_mem_nil _⟩
  have hstart : Fits env (startWorld env { main := true } 0) (startFacts 0) { main := true } (startState {} 0) := by
    refine htable.fits ?_ rfl rfl (fun _ => rfl) fun owner j d hd _ => ?_
    · rw [hmain]
      rfl
    · rw [hmain] at hd
      cases hd
  have hsave : Straight (settingOf env) true [] (perform .rootSave []) fun _ => [] :=
    perform_straight .rootSave [] (List.nil_subset _) rfl rfl
  obtain ⟨W, F, hsaved, -⟩ := hstart.straight (t := { mainBegun {} with scopes := {} }) hsave .nil rfl
  obtain ⟨is, his, hscoped, hascends⟩ := hsaved.code
  have hparams : Params env W.kinds (startFacts 0).written := fun owner j d hd _ => by
    rw [hmain] at hd
    cases hd
  refine ⟨W, F, ⟨hsaved.fits.kept ⟨⟨rfl, rfl, rfl, rfl, rfl, rfl⟩, rfl, rfl⟩, rfl, hparams, is, F, [], _, ?_, ?_,
    hscoped, .nil, hascends, .refl _⟩, hsaved.accesses, hsaved.values⟩
  · rw [List.append_nil]
    exact his
  · have hlen : is.length = 1 := (congrArg List.length his).symm
    rw [hlen]
    rfl

theorem define_advances (h : Fits env W F B s) (hname : env.kind = .user name) (hscopes : s.scopes = {})
    (hcode : s.code = #[]) (hfirst : F.written.length ≤ s.nextReg) (hblocks : B.blocks = []) (hloc : loc.path ≠ [])
    (hrun : hat .defineBlock least b loc env s = .ok x t) :
    ∃ W' F', Advances env F [⟨loc, .function⟩] (marksOfArguments b.args loc 0 env s) W B W' F' t := by
  obtain ⟨argv, s₁, hargs, hrest⟩ := bind_ok hrun
  obtain ⟨W₁, F₁, hmarked, -, hquiet⟩ := arguments_marked b.args hloc h hargs
  obtain ⟨⟨⟩, s₂, hrequire, hrole⟩ := bind_ok hrest
  obtain ⟨-, rfl⟩ := requireArguments_ok hrequire
  obtain ⟨⟨⟩, s₃, hbegin, hlater⟩ := bind_ok hrole
  obtain ⟨id, hid⟩ := beginFunction_template hbegin
  simp only [hid] at hbegin
  obtain ⟨env', s₄, hread, hsaves⟩ := bind_ok hbegin
  cases hread
  rw [hname] at hsaves
  obtain ⟨⟨⟩, s₅, hsave, hroots⟩ := bind_ok hsaves
  obtain ⟨⟨⟩, s₆, hopen, hpolls⟩ := bind_ok hroots
  obtain ⟨⟨⟩, s₇, hpoll, hframe⟩ := bind_ok hpolls
  obtain ⟨⟨⟩, s₈, hsettle, hpush⟩ := bind_ok hlater
  obtain ⟨pushed, s₉, hpushed, hlast⟩ := bind_ok hpush
  obtain ⟨-, rfl⟩ := pure_ok hlast
  have hkept : Kept s₅ s₆ := by
    rw [openRoots_ok hopen]
    exact ⟨⟨rfl, rfl, rfl, rfl, rfl, rfl⟩, rfl, rfl⟩
  have hkept' : Kept s₇ s₃ := by
    rw [onScopes_ok hframe]
    exact ⟨⟨rfl, rfl, rfl, rfl, rfl, rfl⟩, rfl, rfl⟩
  have hopening : s₃.scopes.opening = some .function := by
    rw [onScopes_ok hframe]
    rfl
  -- The code before the body of the function, then what stands in it.
  have hsaving : Straight (settingOf env) true [] (perform .rootSave []) fun _ => [] :=
    perform_straight .rootSave [] (List.nil_subset _) rfl rfl
  have hpolling : Straight (settingOf env) false [] poll fun _ => [] := poll_straight
  obtain ⟨W₂, F₂, hsaved, -⟩ := hmarked.extends_.fits.straight hsaving .nil hsave
  have hbefore := hmarked.extends_.trans hsaved
  obtain ⟨W₃, F₃, hpolled, -⟩ := (hsaved.fits.kept hkept).straight hpolling .nil hpoll
  obtain ⟨W₄, F₄, hsettled⟩ := settle_extends (hpolled.fits.kept hkept') hsettle
  obtain rfl : t = scopePushed s₈ loc .function := by
    have hopened := hsettled.shaped.opening.trans hopening
    obtain ⟨-, hnone, -⟩ | ⟨-, f, hf, -, rfl⟩ := pushOpened_ok hpushed
    · cases hopened.symm.trans hnone
    · cases hopened.symm.trans hf
      rfl
  obtain ⟨pre, hpre, hscoped, hascends⟩ := hbefore.code
  obtain ⟨polls, hpolls, hscoped₃, hascends₃⟩ := hpolled.code
  obtain ⟨settles, hsettles, hscoped₄, hascends₄⟩ := hsettled.code
  have hnil : s.code.toList = [] := by rw [hcode]
  rw [hnil, List.nil_append] at hpre
  rw [hkept.code, hpre] at hpolls
  rw [hkept'.code, hpolls] at hsettles
  have hzero : reached s = 0 := by rw [reached, hnil]; rfl
  have hreached₆ : reached s₆ = widthIn pre := by rw [reached, hkept.code, hpre]
  have hreached₃ : reached s₃ = widthIn pre + widthIn polls := by
    rw [reached, hkept'.code, hpolls, widthIn_append]
  have hgrows : W₂.Grows (widthIn pre) W₄ := by
    rw [← hreached₆]
    exact hpolled.grows.trans hsettled.grows (by omega)
  have hcontrol : s₈.scopes.control = #[] := by
    rw [hsettled.shaped.control, onScopes_ok hframe]
    show s₇.scopes.control = #[]
    rw [hpolled.shaped.control, openRoots_ok hopen]
    rw [hbefore.shaped.control, hscopes]
  have hstarts : (stack s₈.scopes.rootScopes).map RootScope.start = [pre.length] := by
    rw [stack_starts hsettled.shaped, onScopes_ok hframe]
    show (stack s₇.scopes.rootScopes).map RootScope.start = [pre.length]
    rw [stack_starts hpolled.shaped, openRoots_ok hopen]
    rw [stack_push, List.map_cons, stack_starts hbefore.shaped, hscopes, ← hpre, Array.length_toList]
    rfl
  have houter := (afterAll_nests hmarked.tells fun m hm => (hquiet m hm).isNote).outer
  refine ⟨W₄, F₄, ⟨?_, rfl, ?_, pre, F₂, polls ++ settles, s₅.nextReg, ?_, ?_, ?_, ?_⟩, ?_, ?_, hmarked.tells⟩
  · exact hsettled.fits.kept ⟨⟨rfl, rfl, rfl, rfl, rfl, rfl⟩, rfl, rfl⟩
  · exact h.params.mono (hbefore.grows.kinds.trans hgrows.kinds) (List.Subset.refl _)
  · rw [← List.append_assoc]
    exact hsettles
  · show Within W₄ F _ _ (stack (s₈.scopes.control.push ⟨loc, .function⟩)) _
      ((stack s₈.scopes.rootScopes).map RootScope.start) pre F₂ _
    rw [hcontrol, hstarts, houter, hblocks]
    refine .outermost (hgrows.ofCode ?_ (Nat.le_of_eq (Nat.zero_add _))) (hascends.lower hfirst)
    rw [← hzero]
    exact hscoped
  · rw [hreached₆] at hscoped₃
    rw [hreached₃] at hscoped₄
    exact (hsettled.grows.ofCode hscoped₃ (Nat.le_of_eq hreached₃.symm)).append hscoped₄
  · rw [hkept.next] at hascends₃
    rw [hkept'.next] at hascends₄
    exact hascends₃.append hascends₄
  · rw [hsettled.accesses, hpolled.accesses, hbefore.accesses]
    simp only [List.append_nil]
  · rw [hsettled.values, hpolled.values, hbefore.values]
    simp only [List.append_nil]

theorem definition_lowers (h : Fits env W F B s) (hname : env.kind = .user name) (hscopes : s.scopes = {})
    (hcode : s.code = #[]) (hfirst : F.written.length ≤ s.nextReg) (hblocks : B.blocks = [])
    (hid : b.id = "define_block")
    (hrun : chain index ⟨b :: rest⟩ env s = .ok x t) :
    ∃ W' F', Lowers env F (marksOfChain index ⟨b :: rest⟩ env s) W B W' F' t := by
  have hfind : Builtin.find? "define_block" = some (.hat .defineBlock, 1) := by decide
  have huser : env.kind ≠ .main := by
    rw [hname]
    exact nofun
  obtain ⟨s₃, s₂, hblock, hrest, hclose⟩ := (definition_iff hscopes).mp hrun
  have hresolve : resolve b.id ⟨index, [0]⟩ env s = .ok (.builtin (.hat .defineBlock) 1) s := by
    rw [hid]
    exact resolve_builtin hfind
  obtain ⟨resolved, s₄, hresolved, hhat⟩ := bind_ok hblock
  cases hresolve.symm.trans hresolved
  obtain ⟨W₁, F₁, hhead⟩ := define_advances h hname hscopes hcode hfirst hblocks (List.cons_ne_nil _ _) hhat
  have hfunction : ∀ o ∈ ([⟨⟨index, [0]⟩, .function⟩] : List (OpenScope Body)), o.frame = .function := by
    intro o ho
    obtain rfl := List.mem_singleton.mp ho
    rfl
  obtain ⟨W₂, F₂, htail⟩ := blocks_advances hfunction (fun hm => absurd hm huser) rest 1
    (fun hone => absurd hone Nat.one_ne_zero) hhead.state hrest
  have hboth := hhead.trans htail
  have hmarks : marksOfChain index ⟨b :: rest⟩ env s =
      marksOfArguments b.args ⟨index, [0]⟩ 0 env s ++ marksOfBlocks index rest 1 env s₃ := by
    rw [marksOfChain, resetChain_new hscopes, marksOfBlocks, marksOfBlock, seen_ok hresolve, seen_ok hblock]
  rw [hmarks]
  exact ⟨W₂, F₂, hboth.state.rest hclose, hboth.accesses, hboth.values, hboth.tells⟩

def epilogueKinds : FunctionKind → List Content
  | .main => [.void]
  | .user _ => [.void, .value .any]

theorem epilogue_line (env : LowerEnv) (T : List Content) (D : List Reg) :
    ∃ D', Line (settingOf env) (T ++ epilogueKinds env.kind) D (epilogue env.kind T.length) D' := by
  have hfirst : ∀ k rest, (T ++ k :: rest)[T.length]? = some k := by simp
  cases hkind : env.kind with
  | main =>
    have hmain : (settingOf env).main = true := by
      rw [settingOf, hkind]
      rfl
    exact ⟨_, .cons (.entry .nil rfl rfl (hfirst _ _)) (.cons (.ret hmain) .nil)⟩
  | user name =>
    have hsecond : (T ++ epilogueKinds (.user name))[T.length + 1]? = some (.value .any) := by
      simp [epilogueKinds]
    exact ⟨_, .cons (.entry .nil rfl rfl (hfirst _ _)) (.cons (.entry .nil rfl rfl hsecond)
        (.cons (.retValue ⟨hsecond, List.mem_append_left _ (List.mem_singleton_self _)⟩) .nil))⟩

theorem Resting.finish (h : Resting env F₀ W F B s) (hrun : finish loc env s = .ok x t) :
    ∃ new F', Scoped { W with kinds := W.kinds ++ new } 0 F₀ (codeOf t).code F' ∧
      reached s < widthIn (codeOf t).code ∧
      (W.kinds ++ new).length = (codeOf t).registers ∧ W.slots = (codeOf t).slots ∧
      Ascends F₀.written.length (codeOf t).code (codeOf t).registers ∧
      globalsOf t = globalsOf s := by
  obtain ⟨pre, G, seg, a, hcode, hroots, hpre, hseg, hfirst, hascends⟩ := h.segment
  obtain ⟨root, hstack, hstart⟩ := List.map_eq_singleton_iff.mp hroots
  obtain ⟨t', ht', hglobals, hdone⟩ := finish_run loc env hstack hstart hcode
  cases ht'.symm.trans hrun
  obtain ⟨D, hline⟩ := epilogue_line env W.kinds F.written
  rw [← h.fits.ctx] at hline
  have hgrows : W.Grows (reached s) { W with kinds := W.kinds ++ epilogueKinds env.kind } :=
    ⟨rfl, List.prefix_append _ _, ⟨[], (List.append_nil _).symm, nofun⟩,
      ⟨[], (List.append_nil _).symm, nofun⟩, List.prefix_refl _, Nat.le_refl _⟩
  have hreached : reached s = widthIn pre + widthIn seg := by rw [reached, hcode, widthIn_append]
  have hbody := (hgrows.ofCode hpre (by omega)).append
    (by rw [Nat.zero_add]; exact (hgrows.ofCode hseg (by omega)).bodyCode (root.required || env.keepScopes))
  have hend : Scoped { W with kinds := W.kinds ++ epilogueKinds env.kind } (reached s) F
      (epilogue env.kind W.kinds.length) { F with written := D } :=
    .of_line hline h.fits.due rfl h.fits.accesses.below fun e he => (h.fits.values e he).1
  refine ⟨epilogueKinds env.kind, { F with written := D }, ?_, ?_, ?_, ?_, ?_, hglobals⟩
  · rw [hdone, h.fits.next]
    refine hbody.append ?_
    rw [widthIn_append, widthIn_bodyCode, Nat.zero_add, ← hreached]
    exact hend
  · rw [hdone]
    simp only [widthIn_append, widthIn_bodyCode, ← hreached]
    cases env.kind <;> simp [epilogue, widthIn, width]
  · rw [hdone, h.fits.next, List.length_append]
    cases env.kind <;> rfl
  · rw [hdone, h.fits.size]
  · rw [hdone]
    refine (hfirst.append (ascends_bodyCode hascends _)).append ?_
    cases env.kind with
    | main => exact (Ascends.write rfl).append (.silent rfl rfl)
    | user => exact (Ascends.write rfl).append ((Ascends.write rfl).append (.silent rfl rfl))

structure Described (arity : Nat → Option Nat) (C : List Stored) (B : Bindings) (ms : List Mark) (n : Nat)
    (f : FunctionCode) (W : World) : Prop where
  ctx : W.ctx = ⟨arity, B.main⟩
  kinds : W.kinds.length = f.registers
  params : ∀ i < n, W.kinds[i]? = some (.value .any)
  accesses : W.accesses = B.accesses ms
  values : W.values = valuesOf ms
  keys : ((B.accesses ms).map Prod.fst).Nodup
  typed : ∀ e ∈ valuesOf ms, e.1 < widthIn f.code ∧ W.kinds[e.2.1]? = some e.2.2
  cells : W.cells = C
  slots : W.slots = f.slots
  code : ∃ F, Scoped W 0 (startFacts n) f.code F
  ascends : Ascends n f.code f.registers
  tells : B.Tells ms

theorem Lowers.described (h : Lowers env (startFacts n) ms W B W' F' s)
    (hkind : B.main = (env.kind == .main)) (haccesses : W.accesses = []) (hvalues : W.values = [])
    (hparams : ∀ i < n, W'.kinds[i]? = some (.value .any)) (hrun : finish loc env s = .ok x t) :
    (∃ W'', Described (arityOf env) (storedIn (B.afterAll ms).globals) B ms n (codeOf t) W'') ∧
      Table (B.afterAll ms) (globalsOf t) := by
  obtain ⟨new, F'', hcode, hwidth, hregs, hslots, hascends, hglobals⟩ := h.state.finish hrun
  have haccesses' : W'.accesses = B.accesses ms := by rw [h.accesses, haccesses, List.nil_append]
  have hvalues' : W'.values = valuesOf ms := by rw [h.values, hvalues, List.nil_append]
  have hctx : W'.ctx = ⟨arityOf env, B.main⟩ := by
    rw [h.state.fits.ctx, hkind]
    rfl
  have hgrown : W'.kinds <+: W'.kinds ++ new := List.prefix_append _ _
  refine ⟨⟨{ W' with kinds := W'.kinds ++ new }, ⟨hctx, hregs, ?_, haccesses', hvalues', ?_, ?_,
    h.state.fits.cells, hslots, ⟨F'', hcode⟩, List.length_range (n := n) ▸ hascends, h.tells⟩⟩, ?_⟩
  · exact fun i hi => getElem?_mono hgrown (hparams i hi)
  · rw [← haccesses']
    exact h.state.fits.accesses.keys
  · intro e he
    rw [← hvalues'] at he
    obtain ⟨hle, hkind⟩ := h.state.fits.values e he
    exact ⟨Nat.lt_of_le_of_lt hle hwidth, getElem?_mono hgrown hkind⟩
  · rw [hglobals]
    exact h.state.fits.table

/-! ### Programs -/

theorem lowerMain_described (hmain : env.kind = .main) (hrun : lowerMain env chains = (.ok code, g)) :
    let B : Bindings := { main := true }
    let ms := seen beginMain (fun _ => marksOfChains chains) env (startState {} 0)
    (∃ W, Described (arityOf env) (storedIn (B.afterAll ms).globals) B ms 0 code W) ∧ Table (B.afterAll ms) g := by
  intro B ms
  obtain ⟨W, F, hrests, haccesses, hvalues⟩ := mainBegun_rests hmain
  obtain ⟨s, t, hchains, hfinish, rfl, rfl⟩ := lowerMain_ok hrun
  obtain ⟨W', F', hlowers⟩ := mainChains_lowers hmain hrests hchains
  refine hlowers.described ?_ haccesses hvalues (fun i hi => absurd hi (Nat.not_lt_zero _)) hfinish
  rw [hmain]
  rfl

theorem lowerDefinition_described (htable : Table B g) (hchain : p.chains[d.chain]? = some ⟨b :: rest⟩)
    (hid : b.id = "define_block") (hfind : findFunction? env.functions d.blockdef = some (j, f))
    (hrun : lowerDefinition env p d g = (.ok code, g')) :
    let ms := marksOfChain d.chain (p.chains.getD d.chain ⟨[]⟩) (definingEnv env d) (startState g (paramsOf env d))
    (∃ W, Described (arityOf env) (storedIn B.globals) B.entering ms (paramsOf env d) code W) ∧
      Table (B.entering.afterAll ms) g' ∧ storedIn (B.entering.afterAll ms).globals = storedIn B.globals := by
  intro ms
  have hgetD : p.chains.getD d.chain ⟨[]⟩ = ⟨b :: rest⟩ := by
    rw [List.getD_eq_getElem?_getD, hchain]
    rfl
  have hparams : paramsOf env d = f.params.length := by
    simp only [paramsOf, hfind]
  obtain ⟨s, t, hlower, hfinish, rfl, rfl⟩ := lowerDefinition_ok hchain hrun
  have hstart : Fits (definingEnv env d) (startWorld (definingEnv env d) B.entering (paramsOf env d))
      (startFacts (paramsOf env d)) B.entering (startState g (paramsOf env d)) := by
    have htable' : Table B.entering g := ⟨htable.globals, htable.count, htable.distinct, htable.isGlobal⟩
    refine htable'.fits rfl rfl rfl (fun hm => by cases hm) fun owner j' d' hkind hfind' => ?_
    cases hkind
    cases hfind.symm.trans hfind'
    exact Nat.le_of_eq hparams.symm
  obtain ⟨W, F, hlowers⟩ := definition_lowers hstart rfl rfl rfl (Nat.le_of_eq List.length_range) rfl hid hlower
  have hms : ms = marksOfChain d.chain ⟨b :: rest⟩ (definingEnv env d) (startState g (paramsOf env d)) := by
    rw [← hgetD]
  rw [← hms] at hlowers
  have hcells := afterAll_globals hlowers.tells rfl
  obtain ⟨hdescribed, htable'⟩ := hlowers.described rfl rfl rfl (fun i hi =>
    (hlowers.state.params d.blockdef j f rfl hfind i (Nat.lt_of_lt_of_eq hi hparams)).1) hfinish
  rw [hcells] at hdescribed
  exact ⟨hdescribed, htable', hcells⟩

theorem lowerDefinitions_described : ∀ {definitions : List Definition} {B : Bindings}
    {g g' : Globals} {codes : List FunctionCode},
    (∀ d ∈ definitions, ∃ b rest j f, p.chains[d.chain]? = some ⟨b :: rest⟩ ∧ b.id = "define_block" ∧
      findFunction? env.functions d.blockdef = some (j, f)) →
    Table B g → lowerDefinitions env p definitions g = (codes, [], g') →
    g'.cells = (storedIn B.globals).length ∧ codes.length = definitions.length ∧
      ∀ (k : Nat) d code, definitions[k]? = some d → codes[k]? = some code →
        ∃ W, Described (arityOf env) (storedIn B.globals)
          ((B.starts (marksOfDefinitions env p definitions g)).getD k { main := false })
          ((marksOfDefinitions env p definitions g).getD k []) (paramsOf env d) code W
  | [], B, g, g', codes, _, htable, hrun => by
    cases hrun
    exact ⟨htable.count, rfl, fun k d code hd => by cases hd⟩
  | d :: rest, B, g, g', codes, hheads, htable, hrun => by
    obtain ⟨code, g₁, codes', hone, hmore, rfl⟩ := lowerDefinitions_cons hrun
    obtain ⟨b, blocks, j, f, hchain, hid, hfind⟩ := hheads d List.mem_cons_self
    obtain ⟨hdescribed, htable', hcells⟩ := lowerDefinition_described htable hchain hid hfind hone
    obtain ⟨hcount, hlen, hall⟩ :=
      lowerDefinitions_described (fun d hd => hheads d (List.mem_cons_of_mem _ hd)) htable' hmore
    rw [hcells] at hcount hall
    refine ⟨hcount, congrArg Nat.succ hlen, fun k d' code' hd' hcode' => ?_⟩
    rw [marksOfDefinitions, hone]
    cases k with
    | zero =>
      cases hd'
      cases hcode'
      exact hdescribed
    | succ k => exact hall k d' code' hd' hcode'

theorem lowerDefinitions_named : ∀ {definitions : List Definition} {g g' : Globals}
    {codes : List FunctionCode}, lowerDefinitions env p definitions g = (codes, [], g') →
    ∀ d ∈ definitions, ∀ b rest, p.chains[d.chain]? = some ⟨b :: rest⟩ → b.id = "define_block" →
      ∃ id args, b.args = .blockdef id :: args
  | [], _, _, _, _ => nofun
  | d :: rest, g, g', codes, hrun => by
    obtain ⟨code, g₁, codes', hone, hmore, rfl⟩ := lowerDefinitions_cons hrun
    intro d' hd' b bs hchain hid
    rcases List.mem_cons.mp hd' with rfl | hd'
    · have hfind : Builtin.find? "define_block" = some (.hat .defineBlock, 1) := by decide
      obtain ⟨s, t, hlower, -⟩ := lowerDefinition_ok hchain hone
      obtain ⟨s₁, s₂, hblock, -⟩ := (definition_iff rfl).mp hlower
      obtain ⟨resolved, s₄, hresolved, hhat⟩ := bind_ok hblock
      rw [hid, resolve_builtin hfind] at hresolved
      cases hresolved
      exact hat_template hhat
    · exact lowerDefinitions_named hmore d' hd' b bs hchain hid

theorem definitions_named (hdecl : declare p = .ok (functions, definitions))
    (hrun : lowerDefinitions env p definitions g = (codes, [], g')) :
    ∀ y ∈ chainsHeaded p "define_block", namedBlockdef? y.2 ≠ none := by
  intro y hy hnone
  obtain ⟨hchain, b, rest, hblocks, hid⟩ := mem_chainsHeaded hy
  have hindex : y.1 ∈ definitions.map Definition.chain := by
    rw [declareFrom_chains hdecl]
    exact List.mem_map_of_mem hy
  obtain ⟨d, hd, hdy⟩ := List.mem_map.mp hindex
  rw [hblocks, ← hdy] at hchain
  obtain ⟨id, args, hargs⟩ := lowerDefinitions_named hrun d hd b rest hchain hid
  simp only [namedBlockdef?, Chain.head?, hblocks, List.head?_cons, Option.map_some, hargs] at hnone
  cases hnone

/-- How the code of a program is read. -/
structure Layout (p : Program) (code : ProgramCode) where
  arity : Nat → Option Nat
  cells : List Stored
  distinct : cells.Nodup
  isGlobal : ∀ x ∈ cells, x.isGlobal = true
  count : code.cells = cells.length
  arities : ∀ fs ds, declare p = .ok (fs, ds) → ∀ i, arity i = (fs[i]?).map (·.params.length)
  main : ∃ W, Described arity cells (p.bindingsOf none) (p.marksOf none) 0 code.main W
  defined : ∀ i < code.functions.size, ∃ n, arity i = some n
  functions : ∀ i n : Nat, arity i = some n → ∃ f W, code.functions[i]? = some f ∧
    Described arity cells (p.bindingsOf (some i)) (p.marksOf (some i)) n f W

theorem marks_eq {main : FunctionCode} (hdecl : declare p = .ok (functions, definitions))
    (hmain : lowerMain (mainEnv p functions false) (chainsHeaded p "on_start") = (.ok main, g)) :
    p.marks = (seen beginMain (fun _ => marksOfChains (chainsHeaded p "on_start"))
      (mainEnv p functions false) (startState {} 0),
      marksOfDefinitions (mainEnv p functions false) p definitions g) := by
  simp only [mainEnv] at hmain
  simp only [Program.marks, hdecl, hmain, mainEnv]

theorem compile_layout (h : p.compile.result = .ok code) : Nonempty (Layout p code) := by
  obtain ⟨functions, definitions, main, g, codes, g', hdecl, hmain, hlater, rfl⟩ := compile_ok h
  obtain ⟨hlen, hdefs⟩ := declare_named (definitions_named hdecl hlater) hdecl
  obtain ⟨hdescribed, htable⟩ := lowerMain_described rfl hmain
  obtain ⟨hcount, hcodes, hall⟩ := lowerDefinitions_described (fun d hd => by
    obtain ⟨k, hk⟩ := List.getElem?_of_mem hd
    obtain ⟨f, b, rest, -, hname, hfind, hchain, hid⟩ := hdefs k d hk
    exact ⟨b, rest, k, f, hchain, hid, hname ▸ hfind⟩) htable hlater
  have hmarks := marks_eq hdecl hmain
  refine ⟨⟨arityOf (mainEnv p functions false), _, htable.distinct, htable.isGlobal, hcount, fun fs ds h i => ?_, ?_, ?_,
    ?_⟩⟩
  · cases hdecl.symm.trans h
    rfl
  · rw [Program.marksOf, hmarks]
    exact hdescribed
  · intro i hi
    have hlt : i < functions.length := by
      rw [← hlen, ← hcodes]
      exact hi
    exact ⟨_, congrArg (Option.map _) (List.getElem?_eq_getElem hlt)⟩
  · intro i n hi
    obtain ⟨f, hf, rfl⟩ := Option.map_eq_some_iff.mp hi
    have hlt : i < definitions.length := by
      rw [hlen]
      exact (List.getElem?_eq_some_iff.mp hf).1
    have hd := List.getElem?_eq_getElem hlt
    have hcode := List.getElem?_eq_getElem (Nat.lt_of_lt_of_eq hlt hcodes.symm)
    obtain ⟨f', b, rest, hf', hname, hfind, -⟩ := hdefs i _ hd
    cases hf.symm.trans hf'
    obtain ⟨W, hW⟩ := hall i _ _ hd hcode
    have hparams : paramsOf (mainEnv p functions false) definitions[i] = f.params.length := by
      simp only [paramsOf, mainEnv, hname, hfind]
    rw [hparams] at hW
    refine ⟨codes[i], W, ?_, ?_⟩
    · rw [List.getElem?_toArray]
      exact hcode
    · rw [Program.marksOf, Program.bindingsOf, hmarks]
      exact hW

end Blockwork.Tracing
