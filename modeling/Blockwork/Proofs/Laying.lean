import Blockwork.Proofs.Lowering.Blocks
import Blockwork.Proofs.Typing.Straight

/-! # Steps that lay code
Plain blocks, with all that stands inside them, are lowered by few kinds of steps, and `Lays` says which. -/

namespace Blockwork

/-- Whether an instruction may add temporaries and does nothing else to the roots. -/
def Instr.soils : Instr → Bool
  | .entry _ e _ => e.ordinary && e.allocates
  | .call _ _ _ => true
  | _ => false

theorem Instr.isLeaf_of_soils {i : Instr} (h : i.soils = true) : i.isLeaf = true := by
  cases i <;> first | rfl | cases h

theorem Instr.usesFrame_of_soils {i : Instr} (h : i.soils = true) : i.usesFrame = true := by
  cases i with
  | entry d e args => simp [usesFrame, Entry.usesFrame, (Bool.and_eq_true_iff.mp h).2]
  | call => rfl
  | _ => cases h

/-- What stands behind a restore: constants and calls of entry points up to a return. -/
inductive Instr.Exits : List Instr → Prop
  | ret {r : Option Reg} {is : List Instr} : Exits (.ret r :: is)
  | constant {d : Reg} {v : Value} {is : List Instr} : Exits is → Exits (.constant d v :: is)
  | entry {d : Reg} {e : Entry} {args : List Reg} {is : List Instr} : Exits is → Exits (.entry d e args :: is)

open Lower
open Typing

/-- The stacks are the same, the root scopes but for whether they are needed. -/
structure Scopes.Shaped (s t : Scopes Body) : Prop where
  control : t.control = s.control
  opening : t.opening = s.opening
  closing : t.closing = s.closing
  frames : t.variableFrames = s.variableFrames
  starts : t.rootScopes.map RootScope.start = s.rootScopes.map RootScope.start

structure Scopes.Level (s t : Scopes Body) : Prop extends Shaped s t where
  marks : t.dirtyStack = s.dirtyStack

namespace Scopes

variable {s t : Scopes Body}

theorem Shaped.refl (s : Scopes Body) : Shaped s s := ⟨rfl, rfl, rfl, rfl, rfl⟩

theorem Shaped.trans (h : Shaped s t) (h' : Shaped t u) : Shaped s u :=
  ⟨h'.control.trans h.control, h'.opening.trans h.opening, h'.closing.trans h.closing, h'.frames.trans h.frames,
    h'.starts.trans h.starts⟩

theorem Shaped.requireRootScope (s : Scopes Body) : Shaped s s.requireRootScope := by
  refine ⟨rfl, rfl, rfl, rfl, ?_⟩
  apply Array.ext_getElem?
  intro i
  simp only [Scopes.requireRootScope, Array.getElem?_map, Array.getElem?_modify]
  split
  · cases s.rootScopes[i]? <;> rfl
  · rfl

namespace Level

theorem refl (s : Scopes Body) : Level s s := ⟨.refl s, rfl⟩

theorem trans (h : Level s t) (h' : Level t u) : Level s u := ⟨h.toShaped.trans h'.toShaped, h'.marks.trans h.marks⟩

theorem roots (h : Level s t) : t.rootScopes.size = s.rootScopes.size := by
  simpa using congrArg Array.size h.starts

theorem requireRootScope (s : Scopes Body) : Level s s.requireRootScope := ⟨.requireRootScope s, rfl⟩

theorem markDirty (s : Scopes Body) : Level s s.markDirty :=
  ⟨⟨rfl, rfl, rfl, rfl, (Shaped.requireRootScope s).starts⟩, rfl⟩

end Level

end Scopes

open Scopes (Level)

/-! ### Outcomes -/

namespace Lower

variable {α β : Type} {x : Lower α} {f : α → Lower β} {env : LowerEnv} {s t : LowerState}
  {Q Q' : α → LowerState → Prop}

theorem bind_error (h : x env s = .error e t) : (x >>= f) env s = .error e t := by
  simp only [Bind.bind, ReaderT.bind, EStateM.bind, h]

/-- Lowering ends in a state as wanted, or with an error as expected. -/
def Meets (x : Lower α) (env : LowerEnv) (s : LowerState) (Q : α → LowerState → Prop) (E : CompileError → Prop) :
    Prop :=
  match x env s with
  | .ok a t => Q a t
  | .error e _ => E e

/-- Lowering ends in a state as wanted, or fails for a cause that is not about scopes. -/
abbrev Ends (x : Lower α) (env : LowerEnv) (s : LowerState) (Q : α → LowerState → Prop) : Prop :=
  Meets x env s Q (·.cause.isStructural = false)

namespace Meets

variable {E E' : CompileError → Prop}

theorem ok (h : Meets x env s Q E) (hrun : x env s = .ok a t) : Q a t := by
  rw [Meets, hrun] at h
  exact h

theorem error (h : Meets x env s Q E) (hrun : x env s = .error e t) : E e := by
  rw [Meets, hrun] at h
  exact h

theorem pure (h : Q a s) : Meets (Pure.pure a) env s Q E := h

theorem run (hrun : x env s = .ok a t) (hQ : Q a t) : Meets x env s Q E := by
  rw [Meets, hrun]
  exact hQ

theorem fails (hrun : x env s = .error e t) (hE : E e) : Meets x env s Q E := by
  rw [Meets, hrun]
  exact hE

theorem of_eq {y : Lower α} (hrun : x env s = y env' s') (h : Meets y env' s' Q E) : Meets x env s Q E := by
  rwa [Meets, hrun]

theorem imp (h : Meets x env s Q E) (hQ : ∀ a t, Q a t → Q' a t) (hE : ∀ e, E e → E' e) : Meets x env s Q' E' := by
  cases hrun : x env s with
  | ok => exact .run hrun (hQ _ _ (h.ok hrun))
  | error => exact .fails hrun (hE _ (h.error hrun))

theorem mono (h : Meets x env s Q E) (hQ : ∀ a t, Q a t → Q' a t) : Meets x env s Q' E :=
  h.imp hQ fun _ => id

theorem bind {R : β → LowerState → Prop} (hx : Meets x env s (fun a t => Meets (f a) env t R E) E) :
    Meets (x >>= f) env s R E := by
  unfold Meets at hx ⊢
  simp only [Bind.bind, ReaderT.bind, EStateM.bind]
  cases hrun : x env s with
  | ok | error =>
    rw [hrun] at hx
    exact hx

theorem scopes {g : Scopes Body → Scopes.Outcome Body β} {R : β → LowerState → Prop} (hg : g s.scopes = (.ok b, sc))
    (hR : R b { s with scopes := sc }) : Meets (tryScopes g) env s R E := by
  obtain ⟨scopes, code, nextReg, globals, cells⟩ := s
  simp only [Meets, tryScopes, hg]
  exact hR

end Meets

/-! ### Leaving -/

def Boxes (x : Lower α) : Prop :=
  ∀ env s, Ends x env s fun _ t => Level s.scopes t.scopes ∧
    ∃ is, t.code.toList = s.code.toList ++ is ∧ ∀ js, Instr.Exits js → Instr.Exits (is ++ js)

@[simp] theorem boxes_pure (a : α) : Boxes (pure a : Lower α) := fun _ _ =>
  ⟨.refl _, [], by simp, fun _ hjs => hjs⟩

@[simp] theorem boxes_bind {β : Type} {f : α → Lower β} (hx : Boxes x) (hf : ∀ a, Boxes (f a)) : Boxes (x >>= f) := by
  refine fun env s => .bind ((hx env s).mono fun a t h => (hf a env t).mono fun b u h' => ?_)
  obtain ⟨hl, is, hcode, his⟩ := h
  obtain ⟨hl', is', hcode', his'⟩ := h'
  refine ⟨hl.trans hl', is ++ is', by rw [hcode', hcode, List.append_assoc], fun js hjs => ?_⟩
  rw [List.append_assoc]
  exact his _ (his' js hjs)

@[simp] theorem boxes_call (e : Entry) (args : List Reg) : Boxes (call e args) := by
  refine fun env s => .run (Flow.call_ok e args env s) ⟨?_, [.entry s.nextReg e args], ?_, fun _ => .entry⟩
  · unfold Flow.called
    cases e.allocates
    · exact .refl _
    · exact .markDirty _
  · simp [Flow.called]

@[simp] theorem boxes_perform (e : Entry) (args : List Reg) : Boxes (perform e args) :=
  boxes_bind (boxes_call e args) fun _ => boxes_pure _

@[simp] theorem boxes_text (b : Bytes) : Boxes (constant (.text b)) := fun _ _ =>
  ⟨.refl _, [_], Array.toList_push, fun _ => .constant⟩

theorem boxes_toAny (value : Operand) (loc : Location) : Boxes (toAny value loc) := by
  unfold toAny
  split
  case h_10 => exact fun _ _ => rfl
  all_goals simp [stringLiteral]

theorem boxes_handOver (value : Operand) (loc : Location) : Boxes (Flow.handOver value loc) := by
  unfold Flow.handOver
  split
  · split
    · exact boxes_bind (boxes_perform _ _) fun _ => boxes_toAny _ _
    · exact boxes_toAny _ _
  · exact boxes_toAny _ _

theorem leave_exits (value : Operand) (loc : Location) (env : LowerEnv) (s : LowerState) :
    Ends (leave value loc) env s fun _ t => Level s.scopes t.scopes ∧ t.scopes.dirty = false ∧
      ∃ d is, t.code.toList = s.code.toList ++ .entry d .rootRestore [] :: is ∧ Instr.Exits is := by
  cases hkind : env.kind with
  | main =>
    have hrun : leave value loc env s = (do perform .rootRestore []; emit (.ret none)
                                            onScopes (·.setDirty false) : Lower Unit) env s := by
      obtain ⟨kind, functions, owners, keep⟩ := env
      obtain rfl : kind = .main := hkind
      rfl
    refine Meets.of_eq hrun ?_
    exact ⟨⟨⟨rfl, rfl, rfl, rfl, rfl⟩, rfl⟩, rfl, s.nextReg, [.ret none], by simp, .ret⟩
  | user =>
    refine Meets.of_eq (Flow.leave_user s hkind) (.bind (.run rfl (.bind ((boxes_handOver value loc env _).mono fun r t h => ?_))))
    obtain ⟨hl, is, hcode, his⟩ := h
    refine ⟨⟨⟨hl.control, hl.opening, hl.closing, hl.frames, hl.starts⟩, hl.marks⟩, rfl, s.nextReg,
      is ++ [.ret (some r)], ?_, his _ .ret⟩
    simp [hcode]

def flushed (s : LowerState) : LowerState :=
  { s with
    code := s.code.push (.entry s.nextReg .flush []), nextReg := s.nextReg + 1, scopes := s.scopes.setDirty false }

theorem settle_run (loc : Location) (env : LowerEnv) (s : LowerState) :
    settle loc env s = .ok () (if !loc.hasParent && s.scopes.dirty then flushed s else s) := by
  show (if (!loc.hasParent && s.scopes.dirty) = true then _ else Pure.pure () : Lower Unit) env s = _
  split <;> rfl

end Lower

/-! ### Laying code -/

def LowerState.moved (s : LowerState) (control : Array (OpenScope Body)) (roots : Array RootScope)
    (code : Array Instr) : LowerState :=
  { s with code, scopes := { s.scopes with control, rootScopes := roots } }

structure LowerState.Apart (s t : LowerState) : Prop where
  code : t.code = s.code
  dirty : t.scopes.dirty = s.scopes.dirty
  control : t.scopes.control = s.scopes.control
  opening : t.scopes.opening = s.scopes.opening
  closing : t.scopes.closing = s.scopes.closing
  frames : t.scopes.variableFrames = s.scopes.variableFrames
  roots : t.scopes.rootScopes = s.scopes.rootScopes
  marks : t.scopes.dirtyStack = s.scopes.dirtyStack

theorem LowerState.Apart.level {s t : LowerState} (h : s.Apart t) : Level s.scopes t.scopes :=
  ⟨⟨h.control, h.opening, h.closing, h.frames, congrArg _ h.roots⟩, h.marks⟩

/-- Steps that lay code. -/
inductive Lays (loud declares : Bool) : {α : Type} → Lower α → Prop
  | pure {α : Type} (a : α) : Lays loud declares (Pure.pure a : Lower α)
  | bind {α β : Type} {x : Lower α} {f : α → Lower β} :
      Lays loud declares x → (∀ a, Lays loud declares (f a)) → Lays loud declares (x >>= f)
  | fail : cause.isStructural = false → Lays loud declares (Lower.fail cause loc : Lower α)
  | read : (∀ env keep, f (keeping env keep) = f env) → (∀ env, Lays loud declares (f env)) →
      Lays loud declares (MonadReader.read >>= f)
  | get : (∀ s control roots code, control.size = s.scopes.control.size → f (s.moved control roots code) = f s) →
      (∀ s, Lays loud declares (f s)) → Lays loud declares (MonadState.get >>= f)
  | aside {α : Type} {x : Lower α} :
      (∀ env s, ∃ a t, x env s = .ok a t ∧ s.Apart t ∧ ∀ keep control roots code,
        x (keeping env keep) (s.moved control roots code) = .ok a (t.moved control roots code)) →
      Lays loud declares x
  | emit {i : Instr} : i.isQuiet = true → Lays loud declares (emit i)
  | soil {i : Reg → Instr} : loud = true → (∀ d, (i d).soils = true) →
      Lays loud declares (do onScopes .markDirty; let d ← fresh; emit (i d); return d)
  | register {r : Reg} : loud = true → declares = true →
      Lays loud declares (do perform .addRoot [r]; onScopes .requireRootScope)
  | settle (loc : Location) : loud = true → Lays loud declares (settle loc)
  | leave (value : Operand) (loc : Location) : loud = true → Lays loud declares (leave value loc)

namespace Lays

variable {α β : Type} {loud declares : Bool} {x : Lower α} {env : LowerEnv} {s t : LowerState}

attribute [simp] Lays.pure Lays.bind

@[simp] theorem map {g : α → β} (hx : Lays loud declares x) : Lays loud declares (g <$> x) :=
  hx.bind fun _ => .pure _

theorem ends (h : Lays loud declares x) (env : LowerEnv) (s : LowerState) :
    Ends x env s fun _ t => Level s.scopes t.scopes := by
  induction h generalizing env s with
  | pure | emit => exact .refl s.scopes
  | register => exact .requireRootScope s.scopes
  | soil => exact .markDirty s.scopes
  | settle loc =>
    refine .run (settle_run loc env s) ?_
    split <;> exact ⟨⟨rfl, rfl, rfl, rfl, rfl⟩, rfl⟩
  | bind _ _ ihx ihf => exact .bind ((ihx env s).mono fun a t hst => (ihf a env t).mono fun _ _ htu => hst.trans htu)
  | fail hcause => exact hcause
  | read _ _ ih => exact ih env env s
  | get _ _ ih => exact ih s env s
  | aside hx =>
    obtain ⟨a, t, hok, hapart, -⟩ := hx env s
    exact .run hok hapart.level
  | leave value loc => exact (leave_exits value loc env s).mono fun _ _ h => h.1

@[simp] theorem fail_iff : Lays loud declares (Lower.fail cause loc : Lower α) ↔ cause.isStructural = false :=
  ⟨fun h => h.ends { kind := .main } {}, .fail⟩

@[simp] theorem ite_iff [Decidable c] :
    Lays loud declares (if c then x else y) ↔ (c → Lays loud declares x) ∧ (¬c → Lays loud declares y) := by
  split <;> simp [*]

@[simp] theorem mapM {γ : Type} {g : γ → Lower β} (hg : ∀ c, Lays loud declares (g c)) (cs : List γ) :
    Lays loud declares (cs.mapM g) := by
  induction cs with
  | nil => exact .pure []
  | cons c cs ih =>
    rw [List.mapM_cons]
    exact (hg c).bind fun _ => ih.bind fun _ => .pure _

end Lays

namespace Lower

open Lays

variable {α : Type} {loud declares : Bool}

/-! ### Basic steps -/

@[simp] theorem fresh_lays : Lays loud declares fresh :=
  .aside fun _ s => ⟨s.nextReg, { s with nextReg := s.nextReg + 1 }, rfl, ⟨rfl, rfl, rfl, rfl, rfl, rfl, rfl, rfl⟩,
    fun _ _ _ _ => rfl⟩

@[simp] theorem constant_lays (v : Value) : Lays loud declares (constant v) :=
  fresh_lays.bind fun _ => (Lays.emit rfl).bind fun _ => .pure _

@[simp] theorem unary_lays (op : UnaryOp) (r : Reg) : Lays loud declares (unary op r) :=
  fresh_lays.bind fun _ => (Lays.emit rfl).bind fun _ => .pure _

@[simp] theorem binary_lays (op : BinaryOp) (l r : Reg) : Lays loud declares (binary op l r) :=
  fresh_lays.bind fun _ => (Lays.emit rfl).bind fun _ => .pure _

@[simp] theorem poll_lays : Lays loud declares poll := .emit rfl

@[simp] theorem call_quiet (h : (e.ordinary && !e.allocates) = true) (args : List Reg) :
    Lays loud declares (call e args) := by
  have hsilent : e.allocates = false := by simpa using (Bool.and_eq_true_iff.mp h).2
  rw [call, hsilent]
  refine fresh_lays.bind fun dst => Lays.bind ?_ fun _ => .pure _
  exact Lays.emit (i := .entry dst e args) h

@[simp] theorem call_loud (h : e.ordinary = true) (args : List Reg) : Lays true declares (call e args) := by
  cases halloc : e.allocates with
  | false => exact call_quiet (by simp [h, halloc]) args
  | true =>
    rw [call, halloc]
    exact .soil rfl fun d => by simp [Instr.soils, h, halloc]

@[simp] theorem settle_lays (loc : Location) : Lays true declares (settle loc) := .settle loc rfl

@[simp] theorem leave_lays (value : Operand) (loc : Location) : Lays true declares (leave value loc) :=
  .leave value loc rfl

@[simp] theorem elementOf_lays (r : Reg) : Lays loud declares (elementOf r) :=
  fresh_lays.bind fun _ => (Lays.emit rfl).bind fun _ => .pure _

end Lower

theorem Lays.of_parallel {P : Location → Location → Prop} {α : Type} {x y : Lower α} {K : Shape α}
    (h : Parallel P calm loud known x y K) : Lays loud declares x := by
  induction h with
  | pure => exact .pure _
  | bind _ _ ihx ihf =>
    exact ihx.bind fun a => ihf _ a a (List.subset_append_right _ _) (Shape.refl _ (List.subset_append_left _ _))
  | fail hcause => exact .fail hcause
  | constant v => exact constant_lays v
  | unary => exact unary_lays _ _
  | binary => exact binary_lays _ _ _
  | element => exact elementOf_lays _
  | call e args _ he =>
    simp only [Entry.fits, Bool.and_eq_true] at he
    obtain ⟨⟨⟨-, hordinary⟩, -⟩, hloud⟩ := he
    cases loud with
    | false => exact call_quiet (by simpa [hordinary] using hloud) _
    | true => exact call_loud hordinary _

theorem Lays.of {α : Type} {x : Lower α} {K : Shape α}
    (h : Parallel Typing.Anywhere false loud (Typing.same known) x x K) : Lays loud declares x :=
  of_parallel h

namespace Lower

open Lays

variable {α : Type} {loud declares : Bool}

@[simp] theorem toInteger_lays (arg : Operand) (loc : Location) : Lays loud declares (toInteger arg loc) :=
  .of (Typing.toInteger_parallel (.refl (List.Subset.refl _)) trivial)

@[simp] theorem toBool_lays (arg : Operand) (loc : Location) : Lays loud declares (toBool arg loc) :=
  .of (Typing.toBool_parallel (.refl (List.Subset.refl _)) trivial)

@[simp] theorem toAny_lays (arg : Operand) (loc : Location) : Lays true declares (toAny arg loc) :=
  .of (Typing.toAny_parallel (.refl (List.Subset.refl _)) trivial)

/-! ### Variables -/

@[simp] theorem findVariable_lays (name : String) (loc : Location) : Lays loud declares (findVariable name loc) := by
  refine .get (fun _ _ _ _ _ => rfl) fun s => ?_
  split <;> simp

@[simp] theorem variableName_lays (arg : Operand) (loc : Location) : Lays loud declares (variableName arg loc) := by
  unfold variableName
  split <;> simp

theorem modify_lays {g : LowerState → LowerState} (hg : ∀ s : LowerState, s.Apart (g s))
    (hmoved : ∀ (s : LowerState) control roots code, g (s.moved control roots code) = (g s).moved control roots code) :
    Lays loud declares (modify g : Lower Unit) :=
  .aside fun _ s => ⟨(), g s, rfl, hg s, fun _ _ _ _ => congrArg _ (hmoved s _ _ _)⟩

@[simp] theorem takeSlot_lays : Lays loud declares takeSlot := by
  unfold takeSlot
  refine .bind (.aside fun _ s => ?_) fun i => ?_
  · refine ⟨s.scopes.reuseSlot.1, { s with scopes := s.scopes.reuseSlot.2 }, rfl, ?_, fun _ _ _ _ => ?_⟩ <;>
      simp only [Scopes.reuseSlot, LowerState.moved, tryScopes] <;>
      cases s.scopes.slots[s.scopes.slotsUsed]?
    · exact ⟨rfl, rfl, rfl, rfl, rfl, rfl, rfl, rfl⟩
    · exact ⟨rfl, rfl, rfl, rfl, rfl, rfl, rfl, rfl⟩
    · rfl
    · rfl
  split
  · exact .pure _
  · have hadd (i : Nat) : Lays loud declares (onScopes (·.addSlot i)) :=
      modify_lays (fun _ => ⟨rfl, rfl, rfl, rfl, rfl, rfl, rfl, rfl⟩) fun _ _ _ _ => rfl
    exact .get (fun _ _ _ _ _ => rfl) fun s => (hadd _).bind fun _ => .pure _

@[simp] theorem takeCell_lays : Lays loud declares takeCell :=
  .aside fun _ s => ⟨s.cells, { s with cells := s.cells + 1 }, rfl, ⟨rfl, rfl, rfl, rfl, rfl, rfl, rfl, rfl⟩,
    fun _ _ _ _ => rfl⟩

@[simp] theorem initialise_lays (place : Place) (ty : ValueType) (src : Reg) :
    Lays true true (initialise place ty src) := by
  refine (Lays.emit rfl).bind fun _ => ite_iff.mpr ⟨fun _ => ?_, fun _ => .pure _⟩
  exact fresh_lays.bind fun address => (Lays.emit rfl).bind fun _ => .register rfl rfl

@[simp] theorem bindVariable_lays (v : Variable) (global : Bool) : Lays loud declares (bindVariable v global) := by
  unfold bindVariable
  split
  all_goals exact modify_lays (fun _ => ⟨rfl, rfl, rfl, rfl, rfl, rfl, rfl, rfl⟩) fun _ _ _ _ => rfl

@[simp] theorem isGlobalScope_lays : Lays loud declares isGlobalScope :=
  .read (fun _ _ => rfl) fun _ => .get (fun s control _ _ h => by simp [LowerState.moved, Scopes.controlDepth, h]) fun _ =>
    .pure _

@[simp] theorem declareVariable_lays (name : String) (value : Operand) (loc : Location) :
    Lays true true (declareVariable name value loc) := by
  refine isGlobalScope_lays.bind fun global => ?_
  split
  · simp
  · simp
  · simp
  · exact ite_iff.mpr ⟨fun _ => takeCell_lays.bind fun _ => by simp, fun _ => takeSlot_lays.bind fun _ => by simp⟩

@[simp] theorem loadPlace_lays (place : Place) (ty : DataType) (loc : Location) :
    Lays loud declares (loadPlace place ty loc) := by
  unfold loadPlace
  split
  · exact fresh_lays.bind fun _ => (Lays.emit rfl).bind fun _ => .pure _
  · simp

@[simp] theorem loadVariable_lays (name : String) (loc : Location) : Lays loud declares (loadVariable name loc) := by
  refine (findVariable_lays name loc).bind fun v => ?_
  split <;> simp

@[simp] theorem storePlace_lays (place : Place) (value : Operand) (loc : Location) :
    Lays loud declares (storePlace place value loc) := by
  unfold storePlace
  split
  · exact .emit rfl
  · simp

@[simp] theorem setConstant_lays (name text : String) : Lays loud declares (setConstant name text) := by
  unfold setConstant
  refine .bind (.aside fun _ s => ?_) fun found =>
    ite_iff.mpr ⟨fun _ => .pure _, fun _ => modify_lays (fun s => ?_) fun s _ _ _ => ?_⟩
  · refine ⟨(s.scopes.setLocal name (.constant text)).1,
      { s with scopes := (s.scopes.setLocal name (.constant text)).2 }, rfl, ?_, fun _ _ _ _ => ?_⟩ <;>
      simp only [Scopes.setLocal, LowerState.moved, tryScopes] <;>
      cases Scopes.lastNamed? s.scopes.locals name
    · exact ⟨rfl, rfl, rfl, rfl, rfl, rfl, rfl, rfl⟩
    · exact ⟨rfl, rfl, rfl, rfl, rfl, rfl, rfl, rfl⟩
    · rfl
    · rfl
  · split <;> exact ⟨rfl, rfl, rfl, rfl, rfl, rfl, rfl, rfl⟩
  · simp only [LowerState.moved]
    split <;> rfl

@[simp] theorem storeVariable_lays (name : String) (value : Operand) (loc : Location) :
    Lays loud declares (storeVariable name value loc) := by
  refine (findVariable_lays name loc).bind fun v => ite_iff.mpr ⟨fun _ => by simp, fun _ => ?_⟩
  split <;> simp

@[simp] theorem declarationBlock_lays (name value : Operand) (h : declares = true ∨ loc.hasParent = true) :
    Lays true declares (declarationBlock name value loc) := by
  refine ite_iff.mpr ⟨fun _ => by simp, fun hparent => (variableName_lays name loc).bind fun _ => ?_⟩
  obtain rfl := h.resolve_right hparent
  simp

theorem operation_lays (op : Operation) (argv : List Operand) (h : declares = true ∨ loc.hasParent = true) :
    Lays true declares (operation op argv loc) := by
  have hplain (hop : Typing.Operation.isPlain false op = true) : Lays true declares (operation op argv loc) :=
    .of (Typing.operation_parallel hop (Typing.Like.refls (List.Subset.refl _)) trivial)
  cases op with
  | declare => exact declarationBlock_lays _ _ h
  | getVariable | setVariable | leave => simp [operation]
  | _ => exact hplain rfl

@[simp] theorem resolve_lays (id : String) (loc : Location) : Lays loud declares (resolve id loc) := by
  refine .read (fun _ _ => rfl) fun env => ?_
  split
  · exact .pure _
  · split
    · exact .pure _
    · split
      · split <;> simp
      · simp
      · simp

@[simp] theorem requireArguments_lays (id : String) (least got : Nat) (loc : Location) :
    Lays loud declares (requireArguments id least got loc) := by
  simp [requireArguments]

@[simp] theorem callFunction_lays (index : Nat) (decl : FunctionDecl) (argv : List Operand) (loc : Location) :
    Lays true declares (callFunction index decl argv loc) := by
  refine ite_iff.mpr ⟨fun _ => by simp, fun _ => ite_iff.mpr ⟨fun _ => by simp, fun _ => ?_⟩⟩
  refine (Lays.mapM (fun arg => toAny_lays arg loc) argv).bind fun args => ?_
  have hcall : Lays true declares (do onScopes .markDirty; let d ← fresh; emit (.call d index args); return d) :=
    .soil rfl fun _ => rfl
  exact hcall.bind fun dst => poll_lays.bind fun _ => .pure (Operand.reg .any dst)

theorem applyPlain_lays (resolved : Resolved) (id : String) (argv : List Operand)
    (h : declares = true ∨ loc.hasParent = true) : Lays true declares (applyPlain resolved id argv loc) := by
  have hresult : ∀ v : Operand, Lays true declares (do settle loc; return v : Lower Operand) := fun v => by simp
  unfold applyPlain
  split
  · exact (requireArguments_lays _ _ _ _).bind fun _ => (operation_lays _ _ h).bind hresult
  · simp
  · exact (callFunction_lays _ _ _ _).bind hresult
  · exact (Lays.pure _).bind hresult

mutual

theorem arguments_lays (args : List Argument) (hloc : loc.path ≠ []) (i : Nat) :
    Lays true declares (arguments args loc i) := by
  cases args with
  | nil => exact .pure []
  | cons a rest =>
    rw [arguments]
    exact (argument_lays a hloc i).bind fun _ => (arguments_lays rest hloc (i + 1)).bind fun _ => .pure _

theorem argument_lays (a : Argument) (hloc : loc.path ≠ []) (i : Nat) : Lays true declares (argument a loc i) := by
  cases a with
  | text | constant | blockdef =>
    rw [argument]
    exact .pure _
  | color =>
    rw [argument]
    unfold colorArgument
    split <;> simp
  | block b =>
    rw [argument]
    exact nested_lays b (by simp [Location.hasParent, Location.child, List.length_pos_iff, hloc])

theorem nested_lays (b : Block) (hloc : loc.hasParent = true) : Lays true declares (nested b loc) := by
  obtain ⟨id, args⟩ := b
  rw [nested]
  refine (resolve_lays id loc).bind fun resolved => ite_iff.mpr ⟨fun _ => ?_, fun _ => by simp⟩
  have hpath : loc.path ≠ [] := fun h => by simp [Location.hasParent, h] at hloc
  exact (arguments_lays args hpath 0).bind fun _ => applyPlain_lays _ _ _ (.inr hloc)

end

end Lower

end Blockwork
