import Blockwork.Compile.Chain
import Blockwork.Proofs.Flow
import Blockwork.Proofs.Typing.Content
import Mathlib.Data.List.Forall2

/-! # Lowering side by side
How a cast or a plain block is lowered depends on the types of its operands and the texts among them, and never
on the registers. -/

namespace Blockwork

@[simp] def Cause.isStructural : Cause → Bool
  | controlOverflow | controlUnderflow | variableOverflow | variableUnderflow | scopeOverflow | scopeUnderflow
  | invalidControl | unterminated => true
  | _ => false

/-- Whether a plain block may call an entry point on operands of some kinds: a calm one asks nothing of chance, and one
that is not loud allocates nothing. -/
def Entry.fits (e : Entry) (calm loud : Bool) (cs : List Content) : Bool :=
  e.accepts cs && e.ordinary && (!e.isChance || !calm) && (!e.allocates || loud)

namespace Typing

open Lower

abbrev Pairs := List (Reg × Reg × Content)

def same (known : List (Reg × Content)) : Pairs :=
  known.map fun x => (x.1, x.1, x.2)

theorem mem_same : (q, r, c) ∈ same known ↔ q = r ∧ (q, c) ∈ known := by
  simp only [same, List.mem_map, Prod.exists, Prod.mk.injEq]
  constructor
  · rintro ⟨_, _, h, rfl, rfl, rfl⟩
    exact ⟨rfl, h⟩
  · rintro ⟨rfl, h⟩
    exact ⟨q, c, h, rfl, rfl, rfl⟩

theorem same_append (known known' : List (Reg × Content)) : same (known ++ known') = same known ++ same known' :=
  List.map_append

def contents : Operand → List (Reg × Content)
  | .reg ty r => [(r, .value ty)]
  | _ => []

inductive Like (known : Pairs) : Operand → Operand → Prop
  | nothing : Like known .nothing .nothing
  | literal (text : String) : Like known (.literal text) (.literal text)
  | blockdef (id : String) : Like known (.blockdef id) (.blockdef id)
  | reg (ty : ValueType) {q r : Reg} : (q, r, .value ty) ∈ known → Like known (.reg ty q) (.reg ty r)

namespace Like

variable {known known' : Pairs} {a b : Operand}

theorem mono (h : Like known a b) (hk : known ⊆ known') : Like known' a b := by
  cases h with
  | reg ty hr => exact .reg ty (hk hr)
  | nothing => exact .nothing
  | literal text => exact .literal text
  | blockdef id => exact .blockdef id

theorem dataType (h : Like known a b) : a.dataType = b.dataType := by
  cases h <;> rfl

theorem refl (h : same (contents a) ⊆ known) : Like known a a := by
  cases a with
  | reg ty r => exact .reg ty (h List.mem_cons_self)
  | nothing => exact .nothing
  | literal text => exact .literal text
  | blockdef id => exact .blockdef id

theorem refls (h : same (argv.flatMap contents) ⊆ known) : List.Forall₂ (Like known) argv argv := by
  induction argv with
  | nil => exact .nil
  | cons a argv ih =>
    rw [List.flatMap_cons, same_append, List.append_subset] at h
    exact .cons (.refl h.1) (ih h.2)

theorem getD (h : List.Forall₂ (Like known) argv argv') (i : Nat) :
    Like known (argv.getD i .nothing) (argv'.getD i .nothing) := by
  induction h generalizing i with
  | nil => exact .nothing
  | cons hab _ ih =>
    cases i with
    | zero => exact hab
    | succ i => exact ih i

end Like

structure Shape (α : Type) where
  like : Pairs → α → α → Prop
  contents : α → List (Reg × Content)
  refl : ∀ {known a}, same (contents a) ⊆ known → like known a a
  held : ∀ {known a b}, like known a b → ∀ x ∈ contents a, ∃ r, (x.1, r, x.2) ∈ known
  unique : ∀ {known a b}, (∀ k ∈ known, k.1 = k.2.1) → like known a b → a = b

namespace Shape

def unit : Shape Unit where
  like _ _ _ := True
  contents _ := []
  refl _ := trivial
  held _ := List.forall_mem_nil _
  unique _ _ := rfl

def reg (c : Content) : Shape Reg where
  like known q r := (q, r, c) ∈ known
  contents r := [(r, c)]
  refl h := h List.mem_cons_self
  held h := List.forall_mem_singleton.mpr ⟨_, h⟩
  unique hk h := hk _ h

def regs (c : Content) : Shape (List Reg) where
  like known := List.Forall₂ fun q r => (q, r, c) ∈ known
  contents rs := rs.map (·, c)
  refl h := List.forall₂_same.mpr fun _ hr => h (List.mem_map_of_mem (List.mem_map_of_mem hr))
  held h := by
    induction h with
    | nil => exact List.forall_mem_nil _
    | cons hqr _ ih => exact List.forall_mem_cons.mpr ⟨⟨_, hqr⟩, ih⟩
  unique hk h := List.forall₂_eq_eq_eq ▸ h.imp fun _ _ hqr => hk _ hqr

def operand : Shape Operand where
  like := Like
  contents := Typing.contents
  refl := .refl
  held h := by
    cases h with
    | reg ty hr => exact List.forall_mem_singleton.mpr ⟨_, hr⟩
    | _ => exact List.forall_mem_nil _
  unique hk h := by
    cases h with
    | reg ty hr => exact congrArg _ (hk _ hr)
    | _ => rfl

end Shape

/-- Two runs of the same primitive steps on registers that correspond. -/
inductive Parallel (P : Location → Location → Prop) (calm loud : Bool) :
    {α : Type} → Pairs → Lower α → Lower α → Shape α → Prop
  | pure : K.like known a b → Parallel P calm loud known (Pure.pure a) (Pure.pure b) K
  | bind {α β : Type} {known : Pairs} {x y : Lower α} {f g : α → Lower β} {K : Shape α} {L : Shape β} :
      Parallel P calm loud known x y K →
      (∀ known' a b, known ⊆ known' → K.like known' a b → Parallel P calm loud known' (f a) (g b) L) →
      Parallel P calm loud known (x >>= f) (y >>= g) L
  | fail : cause.isStructural = false → P loc loc' → Parallel P calm loud known (fail cause loc)
      (fail cause loc') K
  | constant {known : Pairs} (v : Value) : v.refs = [] →
      Parallel P calm loud known (constant v) (constant v) (.reg v.content)
  | unary {known : Pairs} {op : UnaryOp} {q r : Reg} {c : Content} : (q, r, c) ∈ known → op.accepts c = true →
      Parallel P calm loud known (unary op q) (unary op r) (.reg (.value op.result))
  | binary {known : Pairs} {op : BinaryOp} {q r q' r' : Reg} {c c' : Content} : (q, q', c) ∈ known →
      (r, r', c') ∈ known → op.accepts c c' = true →
      Parallel P calm loud known (binary op q r) (binary op q' r') (.reg (.value op.result))
  | element : (q, r, .value ty) ∈ known → Parallel P calm loud known (elementOf q) (elementOf r) (.reg .element)
  | call {known : Pairs} (e : Entry) (args : Pairs) : args ⊆ known →
      e.fits calm loud (args.map (·.2.2)) = true →
      Parallel P calm loud known (Lower.call e (args.map (·.1))) (Lower.call e (args.map (·.2.1))) (.reg e.yields)

def Anywhere (_ _ : Location) : Prop := True

namespace Parallel

variable {P : Location → Location → Prop} {calm loud : Bool} {known : Pairs} {e : Entry} {q r q' r' : Reg}
  {c c' : Content}

theorem call₀ (he : e.fits calm loud [] = true) :
    Parallel P calm loud known (Lower.call e []) (Lower.call e []) (.reg e.yields) :=
  .call e [] (List.nil_subset _) he

theorem call₁ (h : (q, q', c) ∈ known) (he : e.fits calm loud [c] = true) :
    Parallel P calm loud known (Lower.call e [q]) (Lower.call e [q']) (.reg e.yields) :=
  .call e [(q, q', c)] (by simp [h]) he

theorem call₂ (h : (q, q', c) ∈ known) (h' : (r, r', c') ∈ known) (he : e.fits calm loud [c, c'] = true) :
    Parallel P calm loud known (Lower.call e [q, r]) (Lower.call e [q', r']) (.reg e.yields) :=
  .call e [(q, q', c), (r, r', c')] (by simp [h, h']) he

theorem call₃ (h : (q, q', c) ∈ known) (h' : (r, r', c') ∈ known) (h'' : (s, s', c'') ∈ known)
    (he : e.fits calm loud [c, c', c''] = true) :
    Parallel P calm loud known (Lower.call e [q, r, s]) (Lower.call e [q', r', s']) (.reg e.yields) :=
  .call e [(q, q', c), (r, r', c'), (s, s', c'')] (by simp [h, h', h'']) he

theorem operand (h : Parallel P calm loud known x y (.reg (.value ty))) :
    Parallel P calm loud known (do return .reg ty (← x)) (do return .reg ty (← y)) .operand :=
  .bind h fun _ _ _ _ hr => .pure (.reg ty hr)

theorem statement (h : Parallel P calm loud known (Lower.call e args) (Lower.call e args') (.reg e.yields)) :
    Parallel P calm loud known (statement e args) (statement e args') .operand :=
  .bind (K := .unit) (.bind h fun _ _ _ _ _ => .pure trivial) fun _ _ _ _ _ => .pure .nothing

theorem mapM {f g : Operand → Lower Reg} (h : List.Forall₂ (Like known) argv argv')
    (hf : ∀ known' a b, Like known' a b → Parallel P calm loud known' (f a) (g b) (.reg c)) :
    Parallel P calm loud known (argv.mapM f) (argv'.mapM g) (.regs c) := by
  induction argv generalizing known argv' with
  | nil =>
    cases h
    exact .pure .nil
  | cons a argv ih =>
    cases h with
    | cons hab hrest =>
      rw [List.mapM_cons, List.mapM_cons]
      refine .bind (hf _ _ _ hab) fun known₁ q r hk hqr => ?_
      refine .bind (ih (hrest.imp fun _ _ h => h.mono hk)) fun known₂ qs rs hk' hqrs => ?_
      exact .pure (.cons (hk' hqr) hqrs)

end Parallel

end Typing

end Blockwork
