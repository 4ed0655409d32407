import Blockwork.Proofs.Laying
import Blockwork.Proofs.Lowering.Chains
import Blockwork.Proofs.Renumbering
import Blockwork.Proofs.Trimming.Mirror
import Mathlib.Data.List.Forall2

/-! # Lowering abreast
Whether two lowerings of one chain fail, and how, depends only on which scopes are open, which variables are
visible and which texts they hold. -/

namespace Blockwork

/-- A place in a chain of a program where there is a block. -/
def Location.Points (p : Program) (index : Nat) (l : Location) : Prop :=
  l.chain = index ∧ ∃ b, l.resolve p = some b

def Lower.Resolved.renumber (f : Nat → Nat) : Resolved → Resolved
  | .function i d => .function (f i) d
  | r => r

namespace Abreast

open Lower Compile Scopes
open Flow hiding known
open Trimming
open Typing

def bodyOutline : Body → Body
  | .branch _ _ => .branch 0 0
  | .whileLoop _ _ _ => .whileLoop 0 0 false
  | .countLoop _ => .countLoop 0
  | .foreverLoop => .foreverLoop
  | .plain => .plain

def frameOutline : Frame Body → Frame Body
  | .body b => .body (bodyOutline b)
  | .function => .function

def scopeOutline (o : OpenScope Body) : OpenScope Body :=
  ⟨o.loc, frameOutline o.frame⟩

def variableOutline (v : Variable) : Variable :=
  { v with storage := match v.storage with | .slot _ => .slot 0 | storage => storage }

/-! ### Pairs of lowerings -/

/-- The place of the chain for the second of two lowerings, and the numbers that functions have there. -/
structure Pairing where
  program : Program
  chain : Nat
  env : LowerEnv
  env' : LowerEnv
  number : Nat → Nat
  exact : Bool
  kind : env'.kind = env.kind
  paramOwners : env'.paramOwners = env.paramOwners
  keepScopes : env'.keepScopes = env.keepScopes
  functions : ∀ id, findFunction? env'.functions id = (findFunction? env.functions id).map fun x => (number x.1, x.2)

namespace Pairing

variable (P : Pairing)

def place (l : Location) : Location :=
  { l with chain := P.chain }

def opened (o : OpenScope Body) : OpenScope Body :=
  { o with loc := P.place o.loc }

def state (s : LowerState) : LowerState :=
  { s with
    scopes := { s.scopes with control := s.scopes.control.map P.opened }
    code := s.code.map (Instr.renumber P.number) }

def Same {α : Type} (a b : α) : Prop :=
  P.exact = true → b = a

/-- Results with the same outline, and the same where all agrees. -/
def Alike {α : Type} (outline : α → α) (a b : α) : Prop :=
  outline b = outline a ∧ P.Same a b

def Codes (is js : List Instr) : Prop :=
  P.exact = true → js = is.map (Instr.renumber P.number)

/-- Where both fail: at the same block of the chain, unless all agrees. -/
def Blames (l l' : Location) : Prop :=
  P.exact = false → l' = l ∧ l.Points P.program P.chain

/-- Operands that differ in their registers only. -/
inductive Akin : Operand → Operand → Prop
  | nothing : Akin .nothing .nothing
  | literal (text : String) : Akin (.literal text) (.literal text)
  | blockdef (id : String) : Akin (.blockdef id) (.blockdef id)
  | reg (ty : ValueType) {q r : Reg} : P.Same q r → Akin (.reg ty q) (.reg ty r)

/-- States that differ in what errors do not depend on. -/
structure Beside (s t : LowerState) : Prop where
  control : t.scopes.control.map scopeOutline = s.scopes.control.map fun o => scopeOutline (P.opened o)
  opening : t.scopes.opening.map frameOutline = s.scopes.opening.map frameOutline
  closing : t.scopes.closing.map frameOutline = s.scopes.closing.map frameOutline
  locals : t.scopes.locals.map variableOutline = s.scopes.locals.map variableOutline
  bases : t.scopes.variableFrames.map VariableFrame.base = s.scopes.variableFrames.map VariableFrame.base
  roots : t.scopes.rootScopes.size = s.scopes.rootScopes.size
  dirty : t.scopes.dirty = s.scopes.dirty
  dirtyStack : t.scopes.dirtyStack = s.scopes.dirtyStack
  globals : globalsOf t = globalsOf s
  places : ∀ o ∈ s.scopes.control, P.Blames o.loc (P.place o.loc)
  exact : P.exact = true → t = P.state s

end Pairing

theorem Pairing.Alike.refl {P : Pairing} (a : α) : P.Alike outline a a :=
  ⟨rfl, fun _ => rfl⟩

theorem Pairing.Akin.dataType {P : Pairing} (h : P.Akin a b) : a.dataType = b.dataType := by
  cases h <;> rfl

/-- Two outcomes are alike: results that go together in states that do, or the same error with the same variables of the
program. -/
inductive Paired (P : Pairing) {α β : Type} (R : α → β → Prop) :
    EStateM.Result CompileError LowerState α → EStateM.Result CompileError LowerState β → Prop
  | ok : R a b → P.Beside s t → Paired P R (.ok a s) (.ok b t)
  | error : P.Blames l l' → globalsOf t = globalsOf s → Paired P R (.error ⟨cause, some l⟩ s) (.error ⟨cause,
      some l'⟩ t)

/-- Two steps have outcomes alike from states side by side. -/
def Twins (P : Pairing) {α β : Type} (R : α → β → Prop) (x : Lower α) (y : Lower β) : Prop :=
  ∀ s t, P.Beside s t → Paired P R (x P.env s) (y P.env' t)

def Any {α β : Type} (_ : α) (_ : β) : Prop := True

variable {P : Pairing}

namespace Twins

variable {R : α → β → Prop}

theorem pure (h : R a b) : Twins P R (Pure.pure a) (Pure.pure b) :=
  fun _ _ hst => .ok h hst

theorem bind (hx : Twins P R x y) (hf : ∀ a b, R a b → Twins P T (f a) (g b)) : Twins P T (x >>= f) (y >>= g) := by
  intro s t hst
  have hxy := hx s t hst
  cases hs : x P.env s with
  | ok a s' =>
    cases ht : y P.env' t with
    | ok b t' =>
      rw [hs, ht] at hxy
      cases hxy with
      | ok hab hst' =>
        rw [bind_run hs, bind_run ht]
        exact hf a b hab s' t' hst'
    | error =>
      rw [hs, ht] at hxy
      cases hxy
  | error =>
    cases ht : y P.env' t with
    | ok =>
      rw [hs, ht] at hxy
      cases hxy
    | error =>
      rw [hs, ht] at hxy
      cases hxy with
      | error hl hglobals =>
        rw [bind_error hs, bind_error ht]
        exact .error hl hglobals

theorem mono (h : Twins P R x y) (hRS : ∀ a b, R a b → S a b) : Twins P S x y := by
  intro s t hst
  have hxy := h s t hst
  cases hs : x P.env s <;> cases ht : y P.env' t <;> rw [hs, ht] at hxy
  · cases hxy with
    | ok hab hst' => exact .ok (hRS _ _ hab) hst'
  · cases hxy
  · cases hxy
  · cases hxy with
    | error hl hglobals => exact .error hl hglobals

theorem fail (h : P.Blames loc loc') : Twins P R (fail cause loc) (fail cause loc') := fun _ _ hst =>
  .error h hst.globals

theorem ofEnv (h : Twins P R (f P.env) (g P.env')) :
    Twins P R (MonadReader.read >>= f) (MonadReader.read >>= g) := fun s t hst => h s t hst

theorem ofState (h : ∀ s t, P.Beside s t → Twins P R (f s) (g t)) :
    Twins P R (MonadState.get >>= f) (MonadState.get >>= g) := fun s t hst => h s t hst s t hst

theorem ofScopes (h : ∀ s t, P.Beside s t →
      (∃ a b u v, f s.scopes = (.ok a, u) ∧ g t.scopes = (.ok b, v) ∧ R a b ∧
        P.Beside { s with scopes := u } { t with scopes := v }) ∨
      ∃ cause l l' u v, f s.scopes = failed cause (some l) u ∧ g t.scopes = failed cause (some l') v ∧
        P.Blames l l') :
    Twins P R (tryScopes f) (tryScopes g) := by
  intro s t hst
  obtain ⟨a, b, u, v, hf, hg, hab, huv⟩ | ⟨cause, l, l', u, v, hf, hg, hl⟩ := h s t hst
  · simp only [tryScopes, hf, hg]
    exact .ok hab huv
  · simp only [tryScopes, hf, hg, failed]
    exact .error hl hst.globals

theorem onScopes
    (h : ∀ s t, P.Beside s t → P.Beside { s with scopes := f s.scopes } { t with scopes := g t.scopes }) :
    Twins P Any (onScopes f) (onScopes g) :=
  ofScopes fun s t hst => .inl ⟨_, _, _, _, rfl, rfl, trivial, h s t hst⟩

end Twins

/-! ### Basic steps -/

theorem emit_twins (h : P.exact = true → j = i.renumber P.number) : Twins P Any (emit i) (emit j) :=
  fun s _ hst => .ok trivial { hst with
    exact := fun he => by
      rw [hst.exact he, h he]
      exact congrArg (fun code => { P.state s with code }) Array.map_push.symm }

theorem poll_twins : Twins P Any poll poll := emit_twins fun _ => rfl

theorem fresh_twins : Twins P P.Same fresh fresh := fun _ _ hst =>
  .ok (fun he => by rw [hst.exact he]; rfl) { hst with exact := fun he => by rw [hst.exact he]; rfl }

theorem position_twins : Twins P P.Same position position := fun _ _ hst =>
  .ok (fun he => by rw [hst.exact he]; exact Array.size_map) hst

theorem cutFrom_twins (h : P.Same m n) : Twins P P.Codes (cutFrom m) (cutFrom n) := by
  intro s t hst
  refine .ok (fun he => ?_) { hst with exact := fun he => ?_ }
  · rw [hst.exact he, h he]
    simp [Pairing.state]
  · rw [hst.exact he, h he]
    simp [Pairing.state]

theorem emitAll_twins (h : P.Codes is js) : Twins P Any (emitAll is) (emitAll js) := by
  intro s t hst
  rw [Flow.emitAll_ok, Flow.emitAll_ok]
  exact .ok trivial { hst with
    exact := fun he => by
      rw [hst.exact he, h he]
      simp [Pairing.state] }

theorem markDirty_twins : Twins P Any (onScopes .markDirty) (onScopes .markDirty) := .onScopes fun s t hst =>
  { hst with
    roots := by simpa [markDirty, requireRootScope] using hst.roots
    dirty := rfl
    exact := fun he => by rw [hst.exact he]; rfl }

theorem setDirty_twins (b : Bool) : Twins P Any (onScopes (·.setDirty b)) (onScopes (·.setDirty b)) :=
  .onScopes fun _ _ hst => { hst with dirty := rfl, exact := fun he => by rw [hst.exact he]; rfl }

theorem saveDirty_twins : Twins P Any (onScopes .saveDirty) (onScopes .saveDirty) := .onScopes fun _ _ hst =>
  { hst with
    dirty := rfl
    dirtyStack := by simp only [saveDirty, hst.dirty, hst.dirtyStack]
    exact := fun he => by rw [hst.exact he]; rfl }

theorem restoreDirty_twins : Twins P Any (onScopes .restoreDirty) (onScopes .restoreDirty) := .onScopes fun _ _ hst =>
  { hst with
    dirty := by simp only [restoreDirty, hst.dirtyStack]
    dirtyStack := by simp only [restoreDirty, hst.dirtyStack]
    exact := fun he => by rw [hst.exact he]; rfl }

theorem write_twins {i j : Reg → Instr} (h : ∀ d, P.exact = true → j d = (i d).renumber P.number) :
    Twins P P.Same (do let d ← fresh; emit (i d); return d) (do let d ← fresh; emit (j d); return d) := by
  refine fresh_twins.bind fun q r hqr => (emit_twins fun he => ?_).bind fun _ _ _ => .pure hqr
  rw [hqr he]
  exact h q he

section Registers

variable {q' r' : Reg} (hq : P.Same q q') (hr : P.Same r r')

theorem constant_twins (v : Value) : Twins P P.Same (constant v) (constant v) :=
  write_twins fun _ _ => rfl

include hr in
theorem unary_twins (op : UnaryOp) : Twins P P.Same (unary op r) (unary op r') :=
  write_twins fun _ he => by rw [hr he]; rfl

include hq hr in
theorem binary_twins (op : BinaryOp) : Twins P P.Same (binary op q r) (binary op q' r') :=
  write_twins fun _ he => by rw [hq he, hr he]; rfl

include hr in
theorem elementOf_twins : Twins P P.Same (elementOf r) (elementOf r') :=
  write_twins fun _ he => by rw [hr he]; rfl

theorem call_twins (e : Entry) (h : P.Same args args') : Twins P P.Same (call e args) (call e args') := by
  have hwrite : Twins P P.Same (do let d ← fresh; emit (.entry d e args); return d)
      (do let d ← fresh; emit (.entry d e args'); return d) :=
    write_twins fun _ he => by rw [h he]; rfl
  unfold call
  split
  · exact markDirty_twins.bind fun _ _ _ => hwrite
  · exact hwrite

theorem perform_twins (e : Entry) (h : P.Same args args') : Twins P Any (perform e args) (perform e args') :=
  (call_twins e h).bind fun _ _ _ => .pure trivial

end Registers

theorem settle_twins : Twins P Any (settle loc) (settle (P.place loc)) := by
  refine .ofState fun s t hst => ?_
  show Twins P Any (if (!loc.hasParent && s.scopes.dirty) = true then _ else Pure.pure ())
    (if (!loc.hasParent && t.scopes.dirty) = true then _ else Pure.pure ())
  rw [hst.dirty]
  split
  · exact (perform_twins _ fun _ => rfl).bind fun _ _ _ => setDirty_twins false
  · exact .pure trivial

/-! ### Casts and plain operations -/

def Pairing.Known (P : Pairing) (known : Pairs) : Prop :=
  ∀ k ∈ known, P.Same k.1 k.2.1

theorem Pairing.Known.cons (h : P.Known known) (hqr : P.Same q r) (c : Content) : P.Known ((q, r, c) :: known) :=
  List.forall_mem_cons.mpr ⟨hqr, h⟩

theorem Twins.of_parallel (h : Parallel P.Blames calm loud known x y K) (hknown : P.Known known) :
    Twins P (fun a b => ∃ known', known ⊆ known' ∧ P.Known known' ∧ K.like known' a b) x y := by
  have hreg : ∀ {known : Pairs} (_ : P.Known known) (c : Content) (q r : Reg), P.Same q r →
      ∃ known', known ⊆ known' ∧ P.Known known' ∧ (Shape.reg c).like known' q r := fun hknown c q r hqr =>
    ⟨_, List.subset_cons_self _ _, hknown.cons hqr c, List.mem_cons_self⟩
  induction h with
  | pure hab => exact .pure ⟨_, List.Subset.refl _, hknown, hab⟩
  | bind _ _ ihx ihf =>
    refine (ihx hknown).bind fun a b hab => ?_
    obtain ⟨known', hk, hknown', hlike⟩ := hab
    refine (ihf known' a b hk hlike hknown').mono fun c d hcd => ?_
    obtain ⟨known'', hk', hknown'', hlike'⟩ := hcd
    exact ⟨known'', List.Subset.trans hk hk', hknown'', hlike'⟩
  | fail _ hl => exact .fail hl
  | constant v => exact (constant_twins v).mono (hreg hknown _)
  | unary hr => exact (unary_twins (hknown _ hr) _).mono (hreg hknown _)
  | binary hl hr => exact (binary_twins (hknown _ hl) (hknown _ hr) _).mono (hreg hknown _)
  | element hr => exact (elementOf_twins (hknown _ hr)).mono (hreg hknown _)
  | call e args hargs =>
    refine (call_twins e fun he => ?_).mono (hreg hknown _)
    exact List.map_congr_left fun k hk => hknown k (hargs hk) he

theorem Twins.same (h : Parallel P.Blames false true known x y K) (hknown : P.Known known) : Twins P P.Same x y := by
  refine (of_parallel h hknown).mono fun a b hab he => ?_
  obtain ⟨known', -, hknown', hlike⟩ := hab
  exact (Shape.unique _ (fun k hk => (hknown' k hk he).symm) hlike).symm

theorem Twins.operand (h : Parallel P.Blames false true known x y .operand) (hknown : P.Known known) :
    Twins P P.Akin x y := by
  refine (of_parallel h hknown).mono fun a b hab => ?_
  obtain ⟨known', -, hknown', hlike⟩ := hab
  cases hlike with
  | nothing => exact .nothing
  | literal text => exact .literal text
  | blockdef id => exact .blockdef id
  | reg ty hmem => exact .reg ty (hknown' _ hmem)

theorem akin_like (h : List.Forall₂ P.Akin argv argv') :
    ∃ known, P.Known known ∧ List.Forall₂ (Like known) argv argv' := by
  induction h with
  | nil => exact ⟨[], List.forall_mem_nil _, .nil⟩
  | cons hab _ ih =>
    obtain ⟨known, hknown, hrest⟩ := ih
    cases hab with
    | nothing => exact ⟨known, hknown, .cons .nothing hrest⟩
    | literal text => exact ⟨known, hknown, .cons (.literal text) hrest⟩
    | blockdef id => exact ⟨known, hknown, .cons (.blockdef id) hrest⟩
    | reg ty hqr =>
      refine ⟨_, hknown.cons hqr (.value ty), .cons (.reg ty List.mem_cons_self) ?_⟩
      exact hrest.imp fun _ _ hlike => hlike.mono (List.subset_cons_self _ _)

section Operations

variable (h : P.Akin a b) (hloc : P.Blames loc (P.place loc))

theorem exists_like (h : P.Akin a b) : ∃ known, P.Known known ∧ Like known a b := by
  obtain ⟨known, hknown, hlike⟩ := akin_like (.cons h .nil)
  cases hlike with
  | cons hab => exact ⟨known, hknown, hab⟩

include h hloc

theorem toInteger_twins : Twins P P.Same (toInteger a loc) (toInteger b (P.place loc)) := by
  obtain ⟨known, hknown, hlike⟩ := exists_like h
  exact .same (toInteger_parallel hlike hloc) hknown

theorem toBool_twins : Twins P P.Same (toBool a loc) (toBool b (P.place loc)) := by
  obtain ⟨known, hknown, hlike⟩ := exists_like h
  exact .same (toBool_parallel hlike hloc) hknown

theorem toAny_twins : Twins P P.Same (toAny a loc) (toAny b (P.place loc)) := by
  obtain ⟨known, hknown, hlike⟩ := exists_like h
  exact .same (toAny_parallel hlike hloc) hknown

omit h hloc

/-! ### Variables -/

theorem alike_cases (h : o'.map g = o.map f) :
    (o = none ∧ o' = none) ∨ ∃ a b, o = some a ∧ o' = some b ∧ g b = f a := by
  cases o <;> cases o' <;> simp_all

theorem findLocal?_outline (sc : Scopes Body) (name : String) : (sc.findLocal? name).map variableOutline =
      (sc.locals.map variableOutline).toList.reverse.find? (·.name == name) := by
  simp only [findLocal?, Array.toList_map, ← List.map_reverse, List.find?_map]
  rfl

theorem findVariable_twins (hloc : P.Blames loc (P.place loc)) :
    Twins P (P.Alike variableOutline) (findVariable name loc) (findVariable name (P.place loc)) := by
  refine .ofState fun s t hst => ?_
  have hlocal : (t.scopes.findLocal? name).map variableOutline = (s.scopes.findLocal? name).map variableOutline := by
    rw [findLocal?_outline, findLocal?_outline, hst.locals]
  have hglobals : t.globals = s.globals := congrArg Globals.declared hst.globals
  obtain ⟨hs, ht⟩ | ⟨v, w, hs, ht, hvw⟩ := alike_cases hlocal
  · rw [hs, ht, hglobals]
    cases findGlobal? s.globals name with
    | some v => exact .pure (.refl v)
    | none => exact .fail hloc
  · rw [hs, ht]
    refine .pure ⟨hvw, fun he => ?_⟩
    rw [hst.exact he] at ht
    exact Option.some.inj (ht.symm.trans hs)

theorem variableName_twins (h : P.Akin a b) (hloc : P.Blames loc (P.place loc)) :
    Twins P Eq (variableName a loc) (variableName b (P.place loc)) := by
  cases h with
  | literal => exact .pure rfl
  | _ => exact .fail hloc

theorem isGlobalScope_twins : Twins P Eq isGlobalScope isGlobalScope := by
  refine .ofEnv (.ofState fun s t hst => .pure ?_)
  have hdepth : t.scopes.controlDepth = s.scopes.controlDepth := by
    simpa [controlDepth] using congrArg Array.size hst.control
  rw [hdepth, P.kind]

theorem takeSlot_run (env : LowerEnv) (s : LowerState) :
    takeSlot env s = match s.scopes.slots[s.scopes.slotsUsed]? with
      | some i => .ok i { s with scopes := { s.scopes with slotsUsed := s.scopes.slotsUsed + 1 } }
      | none => .ok s.scopes.slots.size { s with scopes := s.scopes.addSlot s.scopes.slots.size } := by
  cases hslot : s.scopes.slots[s.scopes.slotsUsed]? with
  | some i =>
    rw [takeSlot, bind_run (tryScopes_run (b := some i) (c := { s.scopes with slotsUsed := s.scopes.slotsUsed + 1 }) ?_)]
    · rfl
    · simp only [reuseSlot, hslot]
  | none =>
    rw [takeSlot, bind_run (tryScopes_run (b := none) (c := s.scopes) ?_)]
    · rfl
    · simp only [reuseSlot, hslot]

theorem takeSlot_twins : Twins P P.Same takeSlot takeSlot := by
  intro s t hst
  rw [takeSlot_run, takeSlot_run]
  by_cases he : P.exact = true
  · obtain rfl := hst.exact he
    show Paired P P.Same _ (match s.scopes.slots[s.scopes.slotsUsed]? with | some i => _ | none => _)
    split
    · exact .ok (fun _ => rfl) { hst with exact := fun _ => rfl }
    · exact .ok (fun _ => rfl) { hst with exact := fun _ => rfl }
  · split <;> split <;> exact .ok (fun h => absurd h he) { hst with exact := fun h => absurd h he }

theorem takeCell_twins : Twins P Eq takeCell takeCell := fun s t hst => by
  have hcells : s.cells = t.cells := (congrArg Globals.cells hst.globals).symm
  have hglobals : t.globals = s.globals := congrArg Globals.declared hst.globals
  exact .ok hcells { hst with
    globals := by simp only [globalsOf, hcells, hglobals]
    exact := fun he => by rw [hst.exact he]; rfl }

theorem bindVariable_twins (h : P.Alike variableOutline v w) (hglobal : global = true → w = v) :
    Twins P Any (bindVariable v global) (bindVariable w global) := by
  intro s t hst
  cases global with
  | true =>
    obtain rfl := hglobal rfl
    have hcells : t.cells = s.cells := congrArg Globals.cells hst.globals
    have hglobals : t.globals = s.globals := congrArg Globals.declared hst.globals
    exact .ok trivial { hst with
      globals := by simp only [globalsOf, hcells, hglobals]
      exact := fun he => by rw [hst.exact he]; rfl }
  | false =>
    exact .ok trivial { hst with
      locals := by simp [Scopes.declare, hst.locals, h.1]
      exact := fun he => by rw [hst.exact he, h.2 he]; rfl }

theorem initialise_twins {ty : ValueType} (hp : P.Same pl pl') (hqr : P.Same q r) :
    Twins P Any (initialise pl ty q) (initialise pl' ty r) := by
  refine (emit_twins fun he => by rw [hp he, hqr he]; rfl).bind fun _ _ _ => ?_
  split
  · refine fresh_twins.bind fun d e hde => (emit_twins fun he => by rw [hp he, hde he]; rfl).bind fun _ _ _ => ?_
    refine (perform_twins _ fun he => by rw [hde he]).bind fun _ _ _ => .onScopes fun s t hst => ?_
    exact { hst with
      roots := by simpa [requireRootScope] using hst.roots
      exact := fun he => by rw [hst.exact he]; rfl }
  · exact .pure trivial

theorem declareVariable_twins (h : P.Akin a b) (hloc : P.Blames loc (P.place loc)) :
    Twins P Any (declareVariable name a loc) (declareVariable name b (P.place loc)) := by
  refine isGlobalScope_twins.bind fun global _ heq => ?_
  subst heq
  cases h with
  | literal => exact bindVariable_twins (.refl _) fun _ => rfl
  | nothing | blockdef => exact .fail hloc
  | reg ty hqr =>
    cases global with
    | true =>
      refine takeCell_twins.bind fun i _ heq => ?_
      subst heq
      exact (initialise_twins (fun _ => rfl) hqr).bind fun _ _ _ => bindVariable_twins (.refl _) fun _ => rfl
    | false =>
      refine takeSlot_twins.bind fun i j hij => ?_
      refine (initialise_twins (fun he => by rw [hij he]) hqr).bind fun _ _ _ => ?_
      exact bindVariable_twins ⟨rfl, fun he => by rw [hij he]⟩ (by simp)

theorem declarationBlock_twins (hl : P.Akin left left') (hr : P.Akin right right')
    (hloc : P.Blames loc (P.place loc)) :
    Twins P P.Akin (declarationBlock left right loc) (declarationBlock left' right' (P.place loc)) := by
  unfold declarationBlock
  rw [show (P.place loc).hasParent = loc.hasParent from rfl]
  split
  · exact .fail hloc
  · refine (variableName_twins hl hloc).bind fun name _ heq => ?_
    subst heq
    split
    · exact .fail hloc
    · exact (declareVariable_twins hr hloc).bind fun _ _ _ => .pure hr

theorem loadPlace_twins (hp : P.Same pl pl') (hloc : P.Blames loc (P.place loc)) :
    Twins P P.Akin (loadPlace pl ty loc) (loadPlace pl' ty (P.place loc)) := by
  cases ty with
  | value ty =>
    refine fresh_twins.bind fun q r hqr => (emit_twins fun he => ?_).bind fun _ _ _ => .pure (.reg ty hqr)
    rw [hp he, hqr he]
    rfl
  | _ => exact .fail hloc

theorem loadVariable_twins (hloc : P.Blames loc (P.place loc)) :
    Twins P P.Akin (loadVariable name loc) (loadVariable name (P.place loc)) := by
  refine (findVariable_twins hloc).bind fun v w h => ?_
  obtain ⟨vname, ty, storage⟩ := v
  obtain ⟨wname, ty', storage'⟩ := w
  obtain ⟨houtline, hsame⟩ := h
  cases storage <;> cases storage' <;> cases houtline
  · exact .pure (.literal _)
  · exact loadPlace_twins (fun he => by cases hsame he; rfl) hloc
  · exact loadPlace_twins (fun _ => rfl) hloc

theorem storePlace_twins (h : P.Akin a b) (hp : P.Same pl pl') (hloc : P.Blames loc (P.place loc)) :
    Twins P Any (storePlace pl a loc) (storePlace pl' b (P.place loc)) := by
  cases h with
  | reg ty hqr => exact emit_twins fun he => by rw [hp he, hqr he]; rfl
  | _ => exact .fail hloc

theorem lastNamed?_outline (vs : Array Variable) (name : String) :
    lastNamed? (vs.map variableOutline) name = lastNamed? vs name := by
  simp only [lastNamed?, Array.toList_map, ← List.map_reverse, List.findIdx?_map, Array.size_map]
  rfl

theorem retext_outline (vs : Array Variable) (i : Nat) (text : String) :
    (retext vs i text).map variableOutline = retext (vs.map variableOutline) i text := by
  apply Array.ext_getElem?
  intro j
  simp only [retext, Array.getElem?_map, Array.getElem?_modify]
  split
  · simp only [Option.map_map]
    rfl
  · rfl

theorem setConstant_twins (name text : String) : Twins P Any (setConstant name text) (setConstant name text) := by
  intro s t hst
  rw [setConstant_run, setConstant_run]
  refine .ok trivial ?_
  have hcells : t.cells = s.cells := congrArg Globals.cells hst.globals
  have hglobals : t.globals = s.globals := congrArg Globals.declared hst.globals
  have hexact : P.exact = true → texted t name text = P.state (texted s name text) := fun he => by
    rw [hst.exact he]
    simp only [texted, Pairing.state]
    split
    · rfl
    · split <;> rfl
  revert hexact
  unfold texted
  rw [← lastNamed?_outline t.scopes.locals, hst.locals, lastNamed?_outline, hglobals]
  cases lastNamed? s.scopes.locals name with
  | some => exact fun hexact => { hst with
      locals := by simp [hst.locals, retext_outline]
      globals := by simp [globalsOf, hcells]
      exact := hexact }
  | none =>
    cases lastNamed? s.globals name with
    | some => exact fun hexact => { hst with globals := by simp [globalsOf, hcells], exact := hexact }
    | none => exact fun _ => hst

theorem storeVariable_twins (h : P.Akin a b) (hloc : P.Blames loc (P.place loc)) :
    Twins P Any (storeVariable name a loc) (storeVariable name b (P.place loc)) := by
  refine (findVariable_twins hloc).bind fun v w hvw => ?_
  obtain ⟨vname, ty, storage⟩ := v
  obtain ⟨wname, ty', storage'⟩ := w
  obtain ⟨houtline, hsame⟩ := hvw
  rw [h.dataType]
  cases storage <;> cases storage' <;> cases houtline
  all_goals
    split
  · exact .fail hloc
  · cases h with
    | literal text => exact setConstant_twins name text
    | _ => exact .fail hloc
  · exact .fail hloc
  · exact storePlace_twins h (fun he => by cases hsame he; rfl) hloc
  · exact .fail hloc
  · exact storePlace_twins h (fun _ => rfl) hloc

end Operations

end Abreast

end Blockwork
