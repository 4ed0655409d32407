import Blockwork.Proofs.Lowering.Blocks

/-! # Open scopes
While a chain is lowered, the code before the body of every open scope is set aside in the buffer. -/

namespace Blockwork.Flow

open Lower Scopes

variable {pt : Point} {b : Block}

section Stacks

def stack (a : Array α) : List α := a.toList.reverse

theorem stack_push (a : Array α) (x : α) : stack (a.push x) = x :: stack a := by
  simp [stack]

theorem toList_of_stack (h : stack a = x :: xs) : a.toList = xs.reverse ++ [x] := by
  rw [← List.reverse_reverse a.toList]
  exact (congrArg List.reverse h).trans List.reverse_cons

theorem back?_of_stack (h : stack a = x :: xs) : a.back? = some x := by
  rw [← Array.getLast?_toList, toList_of_stack h, List.getLast?_concat]

theorem stack_pop (h : stack a = x :: xs) : stack a.pop = xs := by
  simp only [stack, Array.toList_pop, toList_of_stack h, List.dropLast_concat, List.reverse_reverse]

theorem back?_of_stack_nil (h : stack a = []) : a.back? = none := by
  rw [← Array.getLast?_toList, List.reverse_eq_nil_iff.mp h]
  rfl

theorem stack_modify (h : stack a = x :: xs) : stack (a.modify (a.size - 1) f) = f x :: xs := by
  have hlist := toList_of_stack h
  have hsize : a.size - 1 = xs.reverse.length := by
    rw [← Array.length_toList, hlist, List.length_append, List.length_singleton, Nat.add_sub_cancel]
  rw [stack, Array.toList_modify, hlist, hsize]
  simp [List.modify_eq_take_drop]

end Stacks

/-! ### Points between statements -/

def Point.IsSettled : Point → Prop
  | .body f => f.Settled
  | .left _ => False
  | .dead => True

def Point.inner : Point → Point
  | .body f => .body f.inner
  | pt => pt

theorem Facts.Settled.within_settle {f : Facts} (h : f.Settled) : f.Within f.settle := by
  refine ⟨fun r w hr => ?_, fun _ _ hp => hp⟩
  exact Option.filter_eq_some_iff.mpr ⟨hr, by simp [h.regs r w hr]⟩

theorem Point.IsSettled.sub_settle (h : pt.IsSettled) : pt.Sub pt.settle := by
  cases pt with
  | dead => trivial
  | left => exact h.elim
  | body => exact ⟨h.within_settle, rfl⟩

theorem Point.IsSettled.inner (h : pt.IsSettled) : pt.inner.IsSettled := by
  cases pt with
  | dead => trivial
  | left => exact h
  | body => exact Facts.Settled.inner h

theorem Point.has_settle (h : pt.Has pl heap) : pt.settle.Has pl heap := by
  cases pt <;> exact h

theorem Point.Bounded.settle (h : pt.Bounded s) : pt.settle.Bounded s := by
  cases pt with
  | dead => trivial
  | left => exact h.elim
  | body =>
    exact ⟨fun r w hr => h.regs r w (Facts.settle_regs hr).1, h.places, h.fresh⟩

theorem Point.Bounded.settled (h : pt.Bounded s) : pt.settle.IsSettled := by
  cases pt with
  | dead => trivial
  | left => exact h.elim
  | body => exact Facts.settled_settle h.fresh

theorem Visible.settle (h : Visible pt v) : Visible pt.settle v := fun pl hpl =>
  let ⟨ty, hty, hp⟩ := h pl hpl
  ⟨ty, hty, Point.has_settle hp⟩

theorem Fit.settle (h : Fit C s pt) : Fit C s pt.settle :=
  { h with
    point := h.point.settle
    locals := fun v hv => (h.locals v hv).settle
    globals := fun v hv => (h.globals v hv).settle }

theorem Flows.settle {b : Room} (h : Flows c b pt is pt') (hpt : pt'.Bounded s) : Flows c b pt is pt'.settle := by
  have hlast : Flows c b pt' [] pt'.settle := by
    cases pt' with
    | dead => exact .nil
    | left => exact hpt.elim
    | body f => exact .weaken ⟨f.settle_within, rfl, rfl⟩ .nil
  simpa using h.append hlast

/-! ### Open scopes -/

def roomOutside (C : Context) (s : LowerState) (root : RootScope) : Room :=
  ⟨root.required, s.nextReg, s.scopes.slots.size, C.cells⟩

def BodyOk (c : Rules) (root : RootScope) (start : Nat) (pt : Point) : Body → Prop
  | .branch _ handled => pt.Knows c handled .plain
  | .whileLoop begin _ flush =>
    begin = start ∧ (flush = true → root.required = true) ∧ c.counted = false
  | .foreverLoop => c.counted = false
  | _ => True

/-- An open scope: what was emitted in the enclosing root scope before its statement, what its statement
emitted before the body, and what is known then. -/
structure Layer (C : Context) (s : LowerState) (root : RootScope) (frame : VariableFrame) (mark : Bool)
    (body : Body) (pre before test : List Instr) (start mid pt : Point) : Prop where
  opens : root.start = pre.length
  enters : Flows C.rules (roomOutside C s root) start before mid
  tests : Flows C.rules (roomOutside C s root) mid test pt
  kept : start.Sub mid
  sub : mid.Sub pt
  head : mid.IsSettled
  settled : pt.IsSettled
  point : pt.Bounded { s with scopes := { s.scopes with slotsUsed := frame.slotMark } }
  used : frame.slotMark ≤ s.scopes.slots.size
  locals : ∀ v ∈ (s.scopes.locals.toList.map blank).take frame.base, Visible pt v
  globals : ∀ v ∈ s.globals.toList.map blank, Visible pt v
  marked : mark = true → root.required = true
  closes : BodyOk C.rules root (pre ++ before).length pt body
  asks : C.rules.main = false → (pre ++ before)[1]? = some .poll

inductive Outermost : FunctionKind → List (OpenScope Body) → Prop where
  | main : Outermost .main []
  | user {id : String} : Outermost (.user id) [⟨loc, .function⟩]

def heightOf (frames : List VariableFrame) : Nat :=
  (frames.head?.map VariableFrame.base).getD 0

/-- The open scopes, with what stands before the innermost root scope and the point where that starts. -/
inductive Nest (C : Context) (s : LowerState) : List (OpenScope Body) → List RootScope →
    List VariableFrame → List Bool → List Instr → Point → Prop where
  | outermost {control : List (OpenScope Body)} {d : Reg} : Outermost C.env.kind control →
      C.rules.params ≤ d →
      Nest C s control [] [] [] [.entry d .rootSave []] (.body (.start C.rules C.cells))
  | scope {control : List (OpenScope Body)} {roots : List RootScope} {frames : List VariableFrame}
      {marks : List Bool} {pre before test : List Instr} {start mid pt : Point} {loc : Location}
      {root : RootScope} {frame : VariableFrame} {mark : Bool} {body : Body} :
      Nest C s control roots frames marks pre start →
      Layer C s root frame mark body pre before test start mid pt → heightOf frames ≤ frame.base →
      Nest C s (⟨loc, .body body⟩ :: control) (root :: roots) (frame :: frames) (mark :: marks)
        (pre ++ before ++ test) pt.inner

theorem Nest.settled {control : List (OpenScope Body)} (h : Nest C s control roots frames marks pre start) :
    start.IsSettled := by
  cases h with
  | outermost => exact ⟨nofun, rfl⟩
  | scope _ hlayer => exact hlayer.settled.inner

structure Ready (C : Context) (s : LowerState) (pt : Point) : Prop where
  nest : ∃ pre seg roots start, s.code.toList = pre ++ seg ∧
    stack s.scopes.rootScopes = ⟨pre.length, required s⟩ :: roots ∧
    Nest C s (stack s.scopes.control) roots (stack s.scopes.variableFrames) (stack s.scopes.dirtyStack) pre start ∧
    Flows C.rules (roomAt C s) start seg pt ∧ start.Sub pt
  height : heightOf (stack s.scopes.variableFrames) ≤ s.scopes.locals.size
  fit : Fit C s pt
  opening : s.scopes.opening = none
  closing : s.scopes.closing = none
  dirty : s.scopes.dirty = true → required s = true
  asks : C.rules.main = false → s.code.toList[1]? = some .poll

/-! ### States that grow -/

theorem getElem?_one_append {is : List Instr} (h : code[1]? = some i) : (code ++ is)[1]? = some i := by
  rw [List.getElem?_append_left (List.getElem?_eq_some_iff.mp h).1, h]

theorem Layer.mono (h : Layer C s root frame mark body pre before test start mid pt) (hreg : s.nextReg ≤ s'.nextReg)
    (hslots : s.scopes.slots.size ≤ s'.scopes.slots.size) (hcells : s.cells ≤ s'.cells)
    (hlocals : (s'.scopes.locals.toList.map blank).take frame.base =
      (s.scopes.locals.toList.map blank).take frame.base) (hglobals : s'.globals.map blank = s.globals.map blank) :
    Layer C s' root frame mark body pre before test start mid pt := by
  have hroom : (roomOutside C s root).Le (roomOutside C s' root) := ⟨id, hreg, hslots, List.prefix_rfl⟩
  have hg : s'.globals.toList.map blank = s.globals.toList.map blank := by
    simpa using congrArg Array.toList hglobals
  exact
    { h with
      enters := h.enters.mono hroom
      tests := h.tests.mono hroom
      point := h.point.mono hreg (Nat.le_refl _) hcells
      used := Nat.le_trans h.used hslots
      locals := hlocals ▸ h.locals
      globals := hg ▸ h.globals }

theorem Nest.mono {control : List (OpenScope Body)} (h : Nest C s control roots frames marks pre start)
    (hreg : s.nextReg ≤ s'.nextReg) (hslots : s.scopes.slots.size ≤ s'.scopes.slots.size)
    (hcells : s.cells ≤ s'.cells) (hglobals : s'.globals.map blank = s.globals.map blank) :
    (s'.scopes.locals.toList.map blank).take (heightOf frames) =
      (s.scopes.locals.toList.map blank).take (heightOf frames) → Nest C s' control roots frames marks pre start := by
  induction h with
  | outermost hc hd => exact fun _ => .outermost hc hd
  | @scope control roots frames marks pre before test start mid pt loc root frame mark body _ hlayer hle ih =>
    intro hlocals
    have hbase : (s'.scopes.locals.toList.map blank).take frame.base =
        (s.scopes.locals.toList.map blank).take frame.base := hlocals
    refine .scope (ih ?_) (hlayer.mono hreg hslots hcells hbase hglobals) hle
    have hmin : heightOf frames = min (heightOf frames) frame.base := (Nat.min_eq_left hle).symm
    rw [hmin, ← List.take_take, ← List.take_take, hbase]

theorem Grown.roots (h : Grown s s') {roots : List RootScope} (hs : stack s.scopes.rootScopes = ⟨n, r⟩ :: roots) :
    stack s'.scopes.rootScopes = ⟨n, Flow.required s'⟩ :: roots := by
  have hbones := congrArg (fun x => stack x.rootScopes) h.scopes
  simp only [bones, skeleton] at hbones
  rw [stack_modify hs] at hbones
  cases hs' : stack s'.scopes.rootScopes with
  | nil =>
    have hempty : s'.scopes.rootScopes = #[] := by simpa [stack] using hs'
    simp [hempty, stack] at hbones
  | cons x =>
    rw [stack_modify hs'] at hbones
    obtain ⟨hx, rfl⟩ := List.cons.inj hbones
    have hstart : x.start = n := congrArg RootScope.start hx
    have hrequired : Flow.required s' = x.required := by
      simp only [Flow.required, back?_of_stack hs', Option.map_some, Option.getD_some]
    rw [hrequired, ← hstart]

theorem Grown.take (h : Grown s s') (hn : n ≤ s.scopes.locals.size) :
    (s'.scopes.locals.toList.map blank).take n = (s.scopes.locals.toList.map blank).take n := by
  obtain ⟨more, hmore⟩ := h.locals
  simp only [Array.toList_map] at hmore
  rw [← hmore, List.take_append_of_le_length]
  simpa using hn

theorem Grown.size (h : Grown s s') : s.scopes.locals.size ≤ s'.scopes.locals.size := by
  simpa using h.locals.length_le

theorem start_cells (h : c.main = true) (cells cells' : List Bool) : Facts.start c cells = Facts.start c cells' := by
  simp only [Facts.start, h, if_true]

theorem Nest.moves (h : Nest C s (stack s.scopes.control) roots frames marks pre start) (hfit : Fit C s pt)
    (hm : Moves C s pt cells s' pt') (hheight : heightOf frames ≤ s.scopes.locals.size) :
    Nest (C.withCells cells) s' (stack s.scopes.control) roots frames marks pre start := by
  by_cases hdepth : 0 < s.scopes.controlDepth
  · obtain rfl := hm.inner hdepth
    have hcells : s.cells ≤ s'.cells := by
      rw [← hfit.cells, ← hm.fit.cells]
      exact Nat.le_refl _
    exact h.mono hm.grown.nextReg hm.grown.slots hcells (hm.grown.globals hdepth) (hm.grown.take hheight)
  · have hempty : stack s.scopes.control = [] := by
      simpa [stack, controlDepth] using hdepth
    rw [hempty] at h ⊢
    cases h with
    | @outermost _ d hc hd =>
      have hmain : C.rules.main = true := by
        cases hkind : C.env.kind with
        | main => exact C.main.mpr hkind
        | user =>
          rw [hkind] at hc
          cases hc
      rw [start_cells hmain C.cells cells]
      exact .outermost (C := C.withCells cells) hc hd

theorem Grown.stacks (h : Grown s s') :
    s'.scopes.variableFrames = s.scopes.variableFrames ∧ s'.scopes.dirtyStack = s.scopes.dirtyStack ∧
      s'.scopes.opening = s.scopes.opening ∧ s'.scopes.closing = s.scopes.closing := by
  have hframes := congrArg variableFrames h.scopes
  have hmarks := congrArg dirtyStack h.scopes
  have hopening := congrArg opening h.scopes
  have hclosing := congrArg closing h.scopes
  exact ⟨hframes, hmarks, hopening, hclosing⟩

theorem Ready.moves (h : Ready C s pt) (hm : Moves C s pt cells s' pt') : Ready (C.withCells cells) s' pt' := by
  obtain ⟨pre, seg, roots, start, hcode, hroots, hnest, hflow, hsub⟩ := h.nest
  obtain ⟨is, hcode', hflow'⟩ := hm.code
  obtain ⟨hframes, hmarks, hopening, hclosing⟩ := hm.grown.stacks
  have hroom : (roomAt C s).Le (roomAt (C.withCells cells) s') :=
    ⟨hm.grown.required, hm.grown.nextReg, hm.grown.slots, hm.table⟩
  have hsub' : start.Sub pt' := (hnest.settled.sub_settle.trans hsub.settle).trans hm.sub
  refine
    { nest := ⟨pre, seg ++ is, roots, start, ?_, hm.grown.roots hroots, ?_, (hflow.mono hroom).append hflow', hsub'⟩
      height := ?_
      fit := hm.fit
      opening := hopening.trans h.opening
      closing := hclosing.trans h.closing
      dirty := fun hd => (hm.grown.dirty hd).elim (fun hd => hm.grown.required (h.dirty hd)) id
      asks := fun hmain => by
        rw [hcode']
        exact getElem?_one_append (h.asks hmain) }
  · rw [hcode', hcode, List.append_assoc]
  · rw [hm.grown.control, hframes, hmarks]
    exact hnest.moves h.fit hm h.height
  · rw [hframes]
    exact Nat.le_trans h.height hm.grown.size

theorem Ready.goes (h : Ready C s pt) (hgo : Goes C loud s pt s' pt') : Ready C s' pt' :=
  h.moves (hgo.moves h.fit)

theorem Ready.settle (h : Ready C s pt) : Ready C s pt.settle := by
  obtain ⟨pre, seg, roots, start, hcode, hroots, hnest, hflow, hsub⟩ := h.nest
  exact { h with
    nest := ⟨pre, seg, roots, start, hcode, hroots, hnest, hflow.settle h.fit.point,
      hnest.settled.sub_settle.trans hsub.settle⟩
    fit := h.fit.settle }

/-! ### Steps on the scopes -/

theorem tryScopes_ok {b : β} (h : tryScopes f env s = .ok b s') :
    ∃ sc, f s.scopes = (.ok b, sc) ∧ s' = { s with scopes := sc } := by
  obtain ⟨scopes, code, nextReg, globals, cells⟩ := s
  simp only [tryScopes] at h
  cases hf : f scopes with
  | mk r sc =>
    rw [hf] at h
    cases r with
    | error => cases h
    | ok =>
      cases h
      exact ⟨sc, rfl, rfl⟩

theorem tryScopes_run {b : β} (h : f s.scopes = (.ok b, c)) : tryScopes f env s = .ok b { s with scopes := c } := by
  simp only [tryScopes, h]

theorem onScopes_ok (h : onScopes f env s = .ok u s') : s' = { s with scopes := f s.scopes } := by
  obtain ⟨sc, hsc, rfl⟩ := tryScopes_ok h
  cases hsc
  rfl

theorem Fit.scopes (h : Fit C s pt) (hslots : sc.slots = s.scopes.slots) (hused : sc.slotsUsed = s.scopes.slotsUsed)
    (hlocals : sc.locals = s.scopes.locals) (hroots : 0 < sc.rootScopes.size) : Fit C { s with scopes := sc } pt where
  params := h.params
  point := h.point.mono (Nat.le_refl _) (Nat.le_of_eq hused.symm) (Nat.le_refl _)
  slots := hslots ▸ h.slots
  used := by
    rw [hslots, hused]
    exact h.used
  roots := hroots
  locals := hlocals ▸ h.locals
  globals := h.globals
  cells := h.cells
  table := h.table

theorem Ready.moves_settle (h : Ready C s pt) (hx : Lower.settle loc C.env s = .ok u s') :
    ∃ pt', Moves C s pt C.cells s' pt' := by
  obtain ⟨t, s₁, hget, hrest⟩ := bind_ok hx
  cases hget
  cases hcond : (!loc.hasParent && s.scopes.dirty) with
  | false =>
    simp only [hcond] at hrest
    cases hrest
    have hsame : Goes C true s pt s pt := .refl h.fit
    exact ⟨pt, hsame.moves h.fit⟩
  | true =>
    simp only [hcond, if_true] at hrest
    have hrequired := h.dirty (Bool.and_eq_true_iff.mp hcond).2
    cases hrest
    have hwritten := h.fit.settle.written (.entry s.nextReg .flush []) .plain
    refine ⟨pt.settle.put s.nextReg .plain, ⟨⟨[.entry s.nextReg .flush []], by simp, ?_⟩,
      h.fit.settle.sub_put .plain, ⟨rfl, List.prefix_rfl, Nat.le_refl _, Nat.le_refl _, fun _ => rfl,
        Nat.le_succ _, id, nofun⟩, List.prefix_rfl, fun _ => rfl,
      hwritten.scopes rfl rfl rfl h.fit.roots⟩⟩
    cases pt with
    | dead => exact .dead
    | left => exact h.fit.point.elim
    | body => exact .step (.flush h.fit.bounded.fresh h.fit.params hrequired) .nil

theorem Ready.settle_ok (h : Ready C s pt) (hx : Lower.settle loc C.env s = .ok u s') :
    ∃ pt', Moves C s pt C.cells s' pt' ∧ Ready C s' pt' := by
  obtain ⟨pt', hm⟩ := h.moves_settle hx
  exact ⟨pt', hm, h.moves hm⟩

theorem Ready.poll (h : Ready C s pt) (hx : Lower.poll C.env s = .ok u s') :
    ∃ pt', Goes C false s pt s' pt' ∧ Ready C s' pt' := by
  have hpoll : Emits C false [] Lower.poll fun _ => [] := poll_emits
  obtain ⟨pt', hgo, -⟩ := hpoll s pt u s' hx h.fit nofun
  exact ⟨pt', hgo, h.goes hgo⟩

theorem Point.knows_settle (h : pt.Knows c r .plain) : pt.settle.Knows c r .plain := by
  cases pt with
  | dead => trivial
  | left => exact h
  | body => exact h.imp id fun hf => Option.filter_eq_some_iff.mpr ⟨hf, by simp⟩

theorem Moves.plain (h : Moves C s pt cells s' pt') (hr : pt.Knows C.rules r .plain) : pt'.Knows C.rules r .plain :=
  h.sub.knows (Point.knows_settle hr)

theorem Ready.atTop (h : Ready C s pt) : AtTop C s pt := by
  intro hmain hdepth f hf
  obtain ⟨pre, seg, roots, start, -, -, hnest, -, hsub⟩ := h.nest
  have hempty : stack s.scopes.control = [] := by
    simpa [stack, controlDepth] using hdepth
  rw [hempty] at hnest
  generalize stack s.scopes.variableFrames = frames, stack s.scopes.dirtyStack = marks at hnest
  subst hf
  cases hnest with
  | outermost => exact hsub.2.symm

theorem Ready.depth (h : Ready C s pt) (hkind : C.env.kind ≠ .main) : 0 < s.scopes.controlDepth := by
  obtain ⟨pre, seg, roots, start, -, -, hnest, -, -⟩ := h.nest
  have hpos : 0 < (stack s.scopes.control).length := by
    generalize stack s.scopes.variableFrames = frames, stack s.scopes.dirtyStack = marks,
      stack s.scopes.control = control at hnest ⊢
    cases hnest with
    | outermost hc =>
      generalize C.env.kind = kind at hc hkind
      cases hc with
      | main => exact absurd rfl hkind
      | user => exact Nat.one_pos
    | scope => exact Nat.succ_pos _
  simpa [stack, controlDepth] using hpos

theorem requireArguments_ok {id : String} (h : requireArguments id least got loc env s = .ok u t) :
    ¬got < least ∧ t = s := by
  unfold requireArguments at h
  by_cases hlt : got < least
  · rw [if_pos hlt] at h
    exact (fail_ok h).elim
  · rw [if_neg hlt] at h
    exact ⟨hlt, (pure_ok h).2⟩

theorem variableName_ok (h : variableName arg loc env s = .ok name s') : s' = s := by
  cases arg with
  | literal => exact (pure_ok h).2
  | nothing | blockdef | reg => exact (fail_ok h).elim

theorem declarationBlock_moves (h : Ready C s pt) (hk : pt.KnowsAll C.rules (known value))
    (hx : declarationBlock name value loc C.env s = .ok a s') : ∃ cells pt', Moves C s pt cells s' pt' := by
  unfold declarationBlock at hx
  cases hloc : loc.hasParent with
  | true =>
    rw [hloc, if_pos rfl] at hx
    exact (fail_ok hx).elim
  | false =>
    rw [hloc, if_neg nofun] at hx
    obtain ⟨text, s₁, hname, hrest⟩ := bind_ok hx
    obtain rfl := variableName_ok hname
    cases hempty : text == "" with
    | true =>
      rw [hempty, if_pos rfl] at hrest
      exact (fail_ok hrest).elim
    | false =>
      rw [hempty, if_neg nofun] at hrest
      obtain ⟨⟨⟩, s₂, hdecl, hlast⟩ := bind_ok hrest
      obtain ⟨-, rfl⟩ := pure_ok hlast
      exact declareVariable_moves hdecl h.fit hk h.atTop

theorem operation_moves (h : Ready C s pt) (hk : pt.KnowsAll C.rules (argv.flatMap known))
    (hc : C.rules.steady = true → op ≠ .random ∧ op ≠ .unixTime) (hx : operation op argv loc C.env s = .ok a s') :
    ∃ cells pt', Moves C s pt cells s' pt' := by
  by_cases hd : op = .declare
  · subst hd
    exact declarationBlock_moves h (fun x hx => hk x (known_arg argv 1 hx)) hx
  by_cases hs : op = .setVariable
  · subst hs
    obtain ⟨name, s₁, hname, hrest⟩ := bind_ok hx
    obtain rfl := variableName_ok hname
    obtain ⟨⟨⟩, s₂, hstore, hlast⟩ := bind_ok hrest
    obtain ⟨-, rfl⟩ := pure_ok hlast
    obtain ⟨pt', hm, -⟩ := storeVariable_moves hstore h.fit fun x hx => hk x (known_arg argv 1 hx)
    exact ⟨C.cells, pt', hm⟩
  · obtain ⟨pt', hgo, -⟩ := operation_emits op argv loc hd (fun h => absurd h hs) hc s pt a s' hx h.fit hk
    exact ⟨C.cells, pt', hgo.moves h.fit⟩

def Rules.AdmitsStatement (c : Rules) (id : String) : Prop :=
  c.steady = true → id ≠ "random" ∧ id ≠ "unix_time"

theorem plainValue_moves {id : String} (h : Ready C s pt)
    (hk : pt.KnowsAll C.rules (argv.flatMap known)) (hstands : Stands C.env id resolved)
    (hid : C.rules.AdmitsStatement id) (hx : plainValue resolved id argv loc C.env s = .ok a s') :
    ∃ cells pt', Moves C s pt cells s' pt' := by
  cases resolved with
  | builtin b =>
    cases b with
    | operation =>
      obtain ⟨⟨⟩, s₁, hreq, hop⟩ := bind_ok hx
      obtain ⟨-, rfl⟩ := requireArguments_ok hreq
      obtain ⟨-, hrandom, htime, -⟩ := Builtin.name_unique _ (Builtin.mem_catalog hstands)
      refine operation_moves h hk (fun hs => ⟨fun he => ?_, fun he => ?_⟩) hop
      · exact (hid hs).1 (hrandom (he ▸ rfl))
      · exact (hid hs).2 (htime (he ▸ rfl))
    | _ => exact (fail_ok hx).elim
  | function | parameter =>
    obtain ⟨pt', hgo, -⟩ := plainValue_emits hstands (fun _ _ he => by cases he) s pt a s' hx h.fit hk
    exact ⟨C.cells, pt', hgo.moves h.fit⟩

theorem plainBlock_ready (h : Ready C s pt) (hloc : loc.path ≠ []) (hstands : Stands C.env b.id resolved)
    (hargs : ∀ id ∈ Argument.namesIn b.args, C.rules.Admits id) (hid : C.rules.AdmitsStatement b.id) (hx : (do
      let argv ← arguments b.args loc 0
      let _ ← applyPlain resolved b.id argv loc
      poll : Lower Unit) C.env s = .ok u s') :
    ∃ cells pt', Ready (C.withCells cells) s' pt' ∧ (C.env.kind ≠ .main → cells = C.cells) := by
  obtain ⟨argv, s₁, hargv, hrest⟩ := bind_ok hx
  obtain ⟨pt₁, hgo, hknown⟩ := arguments_emits b.args loc 0 hloc hargs s pt argv s₁ hargv h.fit nofun
  have h₁ := h.goes hgo
  obtain ⟨v, s₂, happly, hpoll⟩ := bind_ok hrest
  rw [applyPlain_eq] at happly
  obtain ⟨v', s₃, hvalue, hend⟩ := bind_ok happly
  obtain ⟨⟨⟩, s₄, hsettle, hlast⟩ := bind_ok hend
  obtain ⟨-, rfl⟩ := pure_ok hlast
  obtain ⟨cells, pt₂, hm⟩ := plainValue_moves h₁ hknown hstands hid hvalue
  have h₂ := h₁.moves hm
  obtain ⟨pt₃, -, h₃⟩ := h₂.settle_ok hsettle
  obtain ⟨pt₄, -, h₄⟩ := h₃.poll hpoll
  exact ⟨cells, pt₄, h₄, fun hkind => hm.inner (h₁.depth hkind)⟩

/-! ### Opening a scope -/

def bodyOpened (s : LowerState) (body : Body) : LowerState :=
  { s with
    scopes := { s.scopes with
      rootScopes := s.scopes.rootScopes.push ⟨s.code.size, false⟩
      opening := some (.body body) } }

theorem openRoots_ok (h : openRoots loc env s = .ok u s') : s' = { s with scopes := { s.scopes with
      rootScopes := s.scopes.rootScopes.push ⟨s.code.size, false⟩ } } := by
  obtain ⟨start, s₁, hpos, hpush⟩ := bind_ok h
  cases hpos
  obtain ⟨sc, hsc, rfl⟩ := tryScopes_ok hpush
  unfold pushRootScope at hsc
  split at hsc
  · cases hsc
  · cases hsc
    rfl

theorem openBody_ok (h : openBody body loc env s = .ok u s') : s' = bodyOpened s body := by
  obtain ⟨⟨⟩, s₁, hroots, hframe⟩ := bind_ok h
  obtain rfl := openRoots_ok hroots
  exact onScopes_ok hframe

/-- A scope is entered: its condition is lowered without touching the scopes, and then its body is
opened. -/
def Opens (C : Context) (start : Nat) (s : LowerState) (pt : Point) (s' : LowerState) : Prop :=
  ∃ t pt' body, Goes C false s pt t pt' ∧ s' = bodyOpened t body ∧
    ∀ root : RootScope, (s.scopes.openingDirty = true → root.required = true) → BodyOk C.rules root start pt' body

theorem openScope_opens (hfit : Fit C s pt) (ho : o = .whileTrue ∨ o = .forever → C.rules.counted = false)
    (hk : pt.KnowsAll C.rules (argv.flatMap known)) (hx : openScope o start argv loc C.env s = .ok u s') :
    Opens C start s pt s' := by
  have harg : pt.KnowsAll C.rules (known (argv.getD 0 .nothing)) := fun x hx => hk x (known_arg argv 0 hx)
  cases o with
  | whenTrue =>
    obtain ⟨cond, t, hcond, hopen⟩ := bind_ok hx
    obtain ⟨pt', hgo, hknown⟩ := toBool_emits _ loc s pt cond t hcond hfit harg
    exact ⟨t, pt', _, hgo, openBody_ok hopen, fun _ _ => hknown _ List.mem_cons_self⟩
  | whileTrue =>
    obtain ⟨cond, t, hcond, hrest⟩ := bind_ok hx
    obtain ⟨pt', hgo, -⟩ := toBool_emits _ loc s pt cond t hcond hfit harg
    obtain ⟨t', s₁, hget, hopen⟩ := bind_ok hrest
    cases hget
    exact ⟨t, pt', _, hgo, openBody_ok hopen, fun root hroot =>
      ⟨rfl, hgo.quiet rfl ▸ hroot, ho (Or.inl rfl)⟩⟩
  | counted =>
    obtain ⟨count, t, hcount, hopen⟩ := bind_ok hx
    obtain ⟨pt', hgo, -⟩ := toInteger_emits _ loc s pt count t hcount hfit harg
    exact ⟨t, pt', _, hgo, openBody_ok hopen, fun _ _ => trivial⟩
  | forever => exact ⟨s, pt, _, .refl hfit, openBody_ok hx, fun _ _ => ho (Or.inr rfl)⟩
  | doNothing => exact ⟨s, pt, _, .refl hfit, openBody_ok hx, fun _ _ => trivial⟩

theorem Emits.plain (h : Emits C false [] x fun d => [(d, .plain)]) (hfit : Fit C s pt) (hx : x C.env s = .ok r s') :
    ∃ pt', Goes C false s pt s' pt' ∧ pt'.Knows C.rules r .plain := by
  obtain ⟨pt', hgo, hknown⟩ := h s pt r s' hx hfit nofun
  exact ⟨pt', hgo, hknown _ List.mem_cons_self⟩

theorem openContinuation_opens (hfit : Fit C s pt) (hh : pt.KnowsAll C.rules (known handled))
    (hk : pt.KnowsAll C.rules (argv.flatMap known)) (hx : openContinuation k handled argv loc C.env s = .ok u s') :
    Opens C start s pt s' := by
  obtain ⟨earlier, s₁, hearlier, hrest⟩ := bind_ok hx
  obtain ⟨pt₁, hgo₁, -⟩ := toBool_emits _ loc s pt earlier s₁ hearlier hfit hh
  cases k with
  | elseIf =>
    obtain ⟨cond, s₂, hcond, hrest⟩ := bind_ok hrest
    obtain ⟨pt₂, hgo₂, -⟩ := toBool_emits _ loc s₁ pt₁ cond s₂ hcond hgo₁.fit
      (hgo₁.sub.knowsAll fun x hx => hk x (known_arg argv 0 hx))
    obtain ⟨free, s₃, hfree, hrest⟩ := bind_ok hrest
    obtain ⟨run, s₄, hrun, hrest⟩ := bind_ok hrest
    obtain ⟨done, s₅, hdone, hopen⟩ := bind_ok hrest
    obtain ⟨pt₃, hgo₃, -⟩ := Emits.plain (unary_emits .not earlier) hgo₂.fit hfree
    obtain ⟨pt₄, hgo₄, -⟩ := Emits.plain (binary_emits .and free cond) hgo₃.fit hrun
    obtain ⟨pt₅, hgo₅, hknown⟩ := Emits.plain (binary_emits .or earlier cond) hgo₄.fit hdone
    exact ⟨s₅, pt₅, _, (((hgo₁.trans hgo₂).trans hgo₃).trans hgo₄).trans hgo₅, openBody_ok hopen, fun _ _ => hknown⟩
  | otherwise =>
    obtain ⟨run, s₂, hrun, hrest⟩ := bind_ok hrest
    obtain ⟨done, s₃, hdone, hopen⟩ := bind_ok hrest
    obtain ⟨pt₂, hgo₂, -⟩ := Emits.plain (unary_emits .not earlier) hgo₁.fit hrun
    obtain ⟨pt₃, hgo₃, hknown⟩ := Emits.plain (constant_emits rfl) hgo₂.fit hdone
    exact ⟨s₃, pt₃, _, (hgo₁.trans hgo₂).trans hgo₃, openBody_ok hopen, fun _ _ => hknown⟩

def framePushed (s : LowerState) : LowerState :=
  { s with scopes := { s.scopes with
    variableFrames := s.scopes.variableFrames.push ⟨s.scopes.locals.size, s.scopes.slotsUsed⟩ } }

def scopePushed (s : LowerState) (loc : Location) (f : Frame Body) : LowerState :=
  { s with scopes := { s.scopes with opening := none, control := s.scopes.control.push ⟨loc, f⟩ } }

section Steps

variable {c : Scopes Body}

theorem pushVariableFrame_run (h : c.variableFrames.size < maxOpenScopes) : c.pushVariableFrame loc =
      (.ok (), { c with variableFrames := c.variableFrames.push ⟨c.locals.size, c.slotsUsed⟩ }) :=
  if_neg (Nat.not_le.mpr h)

theorem pushOpened_none (h : c.opening = none) : c.pushOpened loc = (.ok false, c) := by
  rw [pushOpened, h]

theorem pushOpened_run (hopening : c.opening = some f) (hroom : c.control.size < maxOpenScopes) :
    c.pushOpened loc = (.ok true, { c with opening := none, control := c.control.push ⟨loc, f⟩ }) := by
  rw [pushOpened, hopening]
  exact if_neg (Nat.not_le.mpr hroom)

theorem popControl_run (h : c.control.back? = some ⟨opener, .body body⟩) :
    c.popControl loc = (.ok opener, { c with control := c.control.pop, closing := some (.body body) }) := by
  rw [popControl, h]

theorem popVariableFrame_run (h : c.variableFrames.back? = some frame) (loc : Location) :
    c.popVariableFrame loc = (.ok (),
      { c with
        variableFrames := c.variableFrames.pop
        locals := c.locals.shrink frame.base
        slotsUsed := frame.slotMark }) := by
  rw [popVariableFrame, h]

theorem popRootScope_run (h : c.rootScopes.back? = some root) :
    c.popRootScope at? = (.ok root, { c with rootScopes := c.rootScopes.pop }) := by
  rw [popRootScope, h]

end Steps

theorem pushOpened_ok (h : tryScopes (·.pushOpened loc) env s = .ok pushed t) :
    pushed = false ∧ s.scopes.opening = none ∧ t = s ∨ pushed = true ∧ ∃ f, s.scopes.opening = some f ∧
      s.scopes.control.size < maxOpenScopes ∧ t = scopePushed s loc f := by
  obtain ⟨sc, hsc, rfl⟩ := tryScopes_ok h
  cases hopening : s.scopes.opening with
  | none =>
    cases (pushOpened_none hopening).symm.trans hsc
    exact .inl ⟨rfl, rfl, rfl⟩
  | some f =>
    simp only [pushOpened, hopening] at hsc
    split at hsc
    · cases hsc
    next hroom =>
      cases hsc
      exact .inr ⟨rfl, f, rfl, Nat.not_le.mp hroom, rfl⟩

theorem beginScope_iff : beginScope least b loc enter env s = .ok u t ↔
    s.scopes.variableFrames.size < maxOpenScopes ∧ ∃ argv s₁ s₂ s₃ f,
      arguments b.args loc 0 env (framePushed s) = .ok argv s₁ ∧ ¬argv.length < least ∧
      enter s.code.size argv env { s₁ with scopes := s₁.scopes.saveDirty } = .ok () s₂ ∧
      settle loc env s₂ = .ok () s₃ ∧ s₃.scopes.opening = some f ∧ s₃.scopes.control.size < maxOpenScopes ∧
      t = scopePushed s₃ loc f := by
  constructor
  · intro h
    obtain ⟨start, s₁, hpos, hrest⟩ := bind_ok h
    cases hpos
    obtain ⟨⟨⟩, s₁, hframe, hrest⟩ := bind_ok hrest
    obtain ⟨argv, s₂, hargs, hrest⟩ := bind_ok hrest
    obtain ⟨⟨⟩, s₂', hsave, hrest⟩ := bind_ok hrest
    obtain rfl := onScopes_ok hsave
    obtain ⟨⟨⟩, s₂'', hrequire, hrest⟩ := bind_ok hrest
    obtain ⟨⟨⟩, s₃, henter, hrest⟩ := bind_ok hrest
    obtain ⟨⟨⟩, s₄, hsettle, hrest⟩ := bind_ok hrest
    obtain ⟨pushed, s₅, hpush, hlast⟩ := bind_ok hrest
    obtain ⟨hleast, rfl⟩ := requireArguments_ok hrequire
    obtain ⟨sc, hsc, rfl⟩ := tryScopes_ok hframe
    unfold pushVariableFrame at hsc
    split at hsc
    · cases hsc
    next hroom =>
      cases hsc
      obtain ⟨rfl, -⟩ | ⟨rfl, f, hopening, hcontrol, rfl⟩ := pushOpened_ok hpush
      · exact (fail_ok hlast).elim
      · obtain ⟨-, rfl⟩ := pure_ok hlast
        exact ⟨Nat.not_le.mp hroom, argv, s₂, s₃, s₄, f, hargs, hleast, henter, hsettle, hopening, hcontrol, rfl⟩
  · rintro ⟨hroom, argv, s₁, s₂, s₃, f, hargs, hleast, henter, hsettle, hopening, hcontrol, rfl⟩
    have hrequire : requireArguments b.id least argv.length loc = pure () := if_neg hleast
    have hframe : tryScopes (·.pushVariableFrame loc) env s = .ok () (framePushed s) :=
      tryScopes_run (pushVariableFrame_run hroom)
    rw [beginScope, bind_run (show position env s = .ok s.code.size s from rfl), bind_run hframe, bind_run hargs,
      bind_run (show onScopes .saveDirty env s₁ = .ok () _ from rfl), hrequire, pure_bind, bind_run henter,
      bind_run hsettle, bind_run (tryScopes_run (pushOpened_run hopening hcontrol))]
    rfl

theorem settle_clean (h : s.scopes.dirty = false) (env : LowerEnv) : Lower.settle loc env s = .ok () s := by
  have hcond : (!loc.hasParent && s.scopes.dirty) = false := by rw [h, Bool.and_false]
  show (if (!loc.hasParent && s.scopes.dirty) = true then _ else pure () : Lower Unit) env s = _
  rw [hcond]
  rfl

theorem Point.IsSettled.sub_refl (h : pt.IsSettled) : pt.Sub pt := by
  cases pt with
  | dead => trivial
  | left => exact h.elim
  | body f => exact ⟨.refl f, rfl⟩

theorem Point.has_inner (h : pt.Has pl heap) : pt.inner.Has pl heap := by
  cases pt <;> exact h

theorem Visible.inner (h : Visible pt v) : Visible pt.inner v := fun pl hpl =>
  let ⟨ty, hty, hp⟩ := h pl hpl
  ⟨ty, hty, Point.has_inner hp⟩

theorem Point.Bounded.inner (h : pt.Bounded s) : pt.inner.Bounded s := by
  cases pt with
  | dead => trivial
  | left => exact h
  | body => exact ⟨h.regs, h.places, h.fresh⟩

theorem Fit.inner (h : Fit C s pt) : Fit C s pt.inner :=
  { h with
    point := h.point.inner
    locals := fun v hv => (h.locals v hv).inner
    globals := fun v hv => (h.globals v hv).inner }

theorem BodyOk.settle (h : BodyOk c root start pt body) : BodyOk c root start pt.settle body := by
  cases body with
  | branch => exact Point.knows_settle h
  | _ => exact h

theorem Ready.opened (h : Ready C s pt) (hgo : Goes C true (framePushed s) pt.settle s₂ pt₂)
    (hopen : Opens C s.code.size { s₂ with scopes := s₂.scopes.saveDirty } pt₂ s₃) (hf : s₃.scopes.opening = some f) :
    ∃ pt', Ready C (scopePushed s₃ loc f) pt' := by
  obtain ⟨pre, seg, roots, start, hcode, hroots, hnest, hflow, hsub⟩ := h.settle.nest
  obtain ⟨t, pt₃, body, hgo', rfl, hbody⟩ := hopen
  obtain rfl : .body body = f := Option.some.inj hf
  have hscopes : t.scopes = s₂.scopes.saveDirty := hgo'.quiet rfl
  obtain ⟨is, his, hargs⟩ := hgo.code
  obtain ⟨js, hjs, hconds⟩ := hgo'.code
  -- the enclosing root scope is the innermost until the body opens its own
  have hgrown := hgo.kept.grown
  have hroots₂ : stack s₂.scopes.rootScopes = ⟨pre.length, required s₂⟩ :: roots := hgrown.roots hroots
  have hcontrol : s₂.scopes.control = s.scopes.control := hgrown.control
  obtain ⟨hframes, hmarks, hopening, hclosing⟩ := hgrown.stacks
  have hframes : stack s₂.scopes.variableFrames =
      ⟨s.scopes.locals.size, s.scopes.slotsUsed⟩ :: stack s.scopes.variableFrames := by
    rw [hframes]
    exact stack_push _ _
  have hslots : t.scopes.slots = s.scopes.slots := by
    rw [hscopes]
    exact hgo.kept.slots
  have hused : t.scopes.slotsUsed = s.scopes.slotsUsed := by
    have hkept := congrArg slotsUsed hgo.kept.scopes
    rw [hscopes]
    exact hkept
  have hlocals : t.scopes.locals.map blank = s.scopes.locals.map blank := by
    rw [hscopes]
    exact congrArg locals hgo.kept.scopes
  have hglobals : t.globals.map blank = s.globals.map blank := hgo'.kept.globals.trans hgo.kept.globals
  have hcells : t.cells = s.cells := hgo'.kept.cells.trans hgo.kept.cells
  have hreg₂ : s₂.nextReg ≤ t.nextReg := hgo'.kept.nextReg
  have hreg : s.nextReg ≤ t.nextReg := Nat.le_trans hgo.kept.nextReg hreg₂
  have hmark : s₂.scopes.dirty = true → required s₂ = true := fun hd =>
    (hgo.kept.dirty hd).elim (fun hd => hgo.kept.required (h.dirty hd)) id
  have hlocals' : t.scopes.locals.toList.map blank = s.scopes.locals.toList.map blank := by
    simpa using congrArg Array.toList hlocals
  have hsize : t.scopes.locals.size = s.scopes.locals.size := by
    simpa using congrArg Array.size hlocals
  let root : RootScope := ⟨pre.length, required s₂⟩
  let last := scopePushed (bodyOpened t body) loc (.body body)
  have hlayer : Layer C last root ⟨s.scopes.locals.size, s.scopes.slotsUsed⟩ s₂.scopes.dirty body pre seg
      (is ++ js) start pt.settle pt₃.settle := by
    have hrequired : required t = required s₂ := by
      simp only [required, hscopes]
      rfl
    have hroom : (roomAt C s).Le (roomOutside C last root) :=
      ⟨hgo.kept.required, hreg, Nat.le_of_eq (congrArg Array.size hslots.symm), List.prefix_rfl⟩
    have hroom₂ : (roomAt C s₂).Le (roomOutside C last root) :=
      ⟨id, hreg₂, Nat.le_of_eq (congrArg Array.size (hgo.kept.slots.trans hslots.symm)), List.prefix_rfl⟩
    have hroom₃ : (roomAt C t).Le (roomOutside C last root) :=
      ⟨hrequired.symm.trans, Nat.le_refl _, Nat.le_refl _, List.prefix_rfl⟩
    exact
      { opens := rfl
        enters := hflow.mono hroom
        tests := (hargs.mono hroom₂).append ((hconds.settle hgo'.fit.point).mono hroom₃)
        kept := hsub
        sub := (h.fit.point.settled.sub_settle.trans hgo.sub.settle).trans hgo'.sub.settle
        head := h.fit.point.settled
        settled := hgo'.fit.point.settled
        point := hgo'.fit.point.settle.mono (Nat.le_refl _) (Nat.le_of_eq hused) (Nat.le_refl _)
        used := by
          show s.scopes.slotsUsed ≤ t.scopes.slots.size
          rw [hslots]
          exact h.fit.used
        locals := fun v hv => by
          obtain ⟨w, hw, rfl⟩ := List.mem_map.mp (List.mem_of_mem_take hv)
          exact (visible_blank.mpr (hgo'.fit.locals w (Array.mem_toList_iff.mp hw))).settle
        globals := fun v hv => by
          obtain ⟨w, hw, rfl⟩ := List.mem_map.mp hv
          exact (visible_blank.mpr (hgo'.fit.globals w (Array.mem_toList_iff.mp hw))).settle
        marked := hmark
        closes := by
          have hstart : s.code.size = (pre ++ seg).length := by rw [← hcode, Array.length_toList]
          refine (hstart ▸ hbody root fun hd => hmark ?_).settle
          simpa [openingDirty, saveDirty] using hd
        asks := fun hmain => hcode ▸ h.asks hmain }
  have hnest' : Nest C last (stack s.scopes.control) roots (stack s.scopes.variableFrames)
      (stack s.scopes.dirtyStack) pre start :=
    hnest.mono hreg (Nat.le_of_eq (congrArg Array.size hslots.symm)) (Nat.le_of_eq hcells.symm) hglobals
      (congrArg (List.take _) hlocals')
  have hframes' : stack last.scopes.variableFrames =
      ⟨s.scopes.locals.size, s.scopes.slotsUsed⟩ :: stack s.scopes.variableFrames := by
    show stack t.scopes.variableFrames = _
    rw [hscopes]
    exact hframes
  have hfit : Fit C last pt₃.settle.inner := hgo'.fit.settle.inner.scopes rfl rfl rfl (by simp [bodyOpened])
  refine ⟨pt₃.settle.inner, ⟨⟨pre ++ seg ++ (is ++ js), [], root :: roots, pt₃.settle.inner, ?_, ?_, ?_,
    .nil, hgo'.fit.point.settled.inner.sub_refl⟩, ?_, hfit, rfl, ?_, ?_, fun hmain => ?_⟩⟩
  · show t.code.toList = _
    rw [hjs, his, List.append_nil]
    show s.code.toList ++ is ++ js = _
    rw [hcode, List.append_assoc]
  · have hsize' : t.code.size = (pre ++ seg ++ (is ++ js)).length := by
      rw [← Array.length_toList, hjs, his]
      show (s.code.toList ++ is ++ js).length = _
      rw [hcode, List.append_assoc]
    have hlast : required last = false := by simp [required, last, scopePushed, bodyOpened]
    rw [hlast, ← hsize']
    show stack (t.scopes.rootScopes.push ⟨t.code.size, false⟩) = _
    rw [stack_push, hscopes]
    exact congrArg _ hroots₂
  · have hcontrol' : stack last.scopes.control = ⟨loc, .body body⟩ :: stack s.scopes.control := by
      show stack (t.scopes.control.push _) = _
      rw [stack_push, hscopes]
      exact congrArg (fun x => _ :: stack x) hcontrol
    have hmarks' : stack last.scopes.dirtyStack = s₂.scopes.dirty :: stack s.scopes.dirtyStack := by
      show stack t.scopes.dirtyStack = _
      rw [hscopes]
      show stack (s₂.scopes.dirtyStack.push _) = _
      rw [stack_push, hmarks]
      rfl
    rw [hcontrol', hframes', hmarks']
    exact .scope hnest' hlayer h.height
  · rw [hframes']
    exact Nat.le_of_eq hsize.symm
  · show t.scopes.closing = none
    rw [hscopes]
    exact hclosing.trans h.closing
  · show t.scopes.dirty = true → _
    rw [hscopes]
    intro hd
    cases hd
  · show t.code.toList[1]? = _
    rw [hjs, his]
    exact getElem?_one_append (getElem?_one_append (h.asks hmain))

theorem beginScope_ready (h : Ready C s pt) (hloc : loc.path ≠ [])
    (hargs : ∀ id ∈ Argument.namesIn b.args, C.rules.Admits id)
    (henter : ∀ t pt' argv t', Fit C t pt' → pt.settle.Sub pt' →
      pt'.KnowsAll C.rules (argv.flatMap known) → enter s.code.size argv C.env t = .ok () t' →
      Opens C s.code.size t pt' t') (hx : beginScope least b loc enter C.env s = .ok u s') :
    ∃ pt', Ready C s' pt' := by
  obtain ⟨-, argv, s₂, s₃, s₄, f, harguments, -, hin, hsettle, hf, -, rfl⟩ := beginScope_iff.mp hx
  have hfit : Fit C (framePushed s) pt.settle := h.fit.settle.scopes rfl rfl rfl h.fit.roots
  obtain ⟨pt₂, hgo, hknown⟩ :=
    arguments_emits b.args loc 0 hloc hargs (framePushed s) pt.settle argv s₂ harguments hfit nofun
  have hsaved : Fit C { s₂ with scopes := s₂.scopes.saveDirty } pt₂ := hgo.fit.scopes rfl rfl rfl hgo.fit.roots
  have hopens := henter _ pt₂ argv s₃ hsaved hgo.sub hknown hin
  have hclean : s₃.scopes.dirty = false := by
    obtain ⟨t, pt₃, body, hgo', rfl, -⟩ := hopens
    show t.scopes.dirty = false
    rw [hgo'.quiet rfl]
    rfl
  rw [settle_clean hclean] at hsettle
  cases hsettle
  exact h.opened hgo hopens hf

end Blockwork.Flow
