import Blockwork.Machine.Step
import Blockwork.Proofs.Trimming.Code

/-! # Contents of registers
Every register of a function holds one kind of content throughout. -/

namespace Blockwork

inductive Content where
  | value (ty : ValueType)
  | text
  | element
  | place
  | void
  deriving DecidableEq, Repr

def Value.content : Value → Content
  | zero => .void
  | integer _ => .value .integer
  | float _ => .value .float
  | bool _ => .value .bool
  | color _ => .value .color
  | string _ => .value .string
  | list _ => .value .list
  | any _ => .value .any
  | element _ => .element
  | text _ => .text
  | place _ => .place

/-- Whether an operation may be applied to content of a kind. -/
def UnaryOp.accepts : UnaryOp → Content → Bool
  | negate, c => c = .value .integer
  | bitNot, c => c = .value .integer
  | not, c => c = .value .bool
  | isNonzero, c => c = .value .integer
  | isPositive, c => c = .value .integer
  | floatIsTrue, c => c = .value .float
  | integerOfBool, c => c = .value .bool
  | integerOfFloat, c => c = .value .float
  | integerOfColor, c => c = .value .color
  | floatOfInteger, c => c = .value .integer ∨ c = .value .color
  | colorOfInteger, c => c = .value .integer
  | colorOfFloat, c => c = .value .float
  | colorOfBool, c => c = .value .bool

def UnaryOp.result : UnaryOp → ValueType
  | negate => .integer
  | bitNot => .integer
  | not => .bool
  | isNonzero => .bool
  | isPositive => .bool
  | floatIsTrue => .bool
  | integerOfBool => .integer
  | integerOfFloat => .integer
  | integerOfColor => .integer
  | floatOfInteger => .float
  | colorOfInteger => .color
  | colorOfFloat => .color
  | colorOfBool => .color

/-- Whether an operation may be applied to contents of two kinds. -/
def BinaryOp.accepts (op : BinaryOp) (c d : Content) : Bool :=
  match op with
  | floatAdd | floatSub | floatMul | floatDiv | floatCompare _ => c = .value .float ∧ d = .value .float
  | boolEqual | and | or => c = .value .bool ∧ d = .value .bool
  | pointerEqual => c = .value .list ∧ d = .value .list
  | compare .equal =>
    (c = .value .integer ∧ d = .value .integer) ∨ (c = .value .color ∧ d = .value .color)
  | _ => c = .value .integer ∧ d = .value .integer

def BinaryOp.result : BinaryOp → ValueType
  | floatAdd | floatSub | floatMul | floatDiv => .float
  | compare _ | floatCompare _ | boolEqual | pointerEqual | and | or => .bool
  | _ => .integer

theorem UnaryOp.content_run (op : UnaryOp) (v : Value) : (op.run v).content = .value op.result := by
  cases op <;> rfl

theorem BinaryOp.content_run (op : BinaryOp) (v w : Value) : (op.run v w).content = .value op.result := by
  cases op <;> rfl

def Entry.operands : Entry → List Content
  | addRoot => [.place]
  | anyFromInteger | stringFromInteger | stringChr | printInteger | sleep => [.value .integer]
  | anyFromFloat | stringFromFloat | printFloat => [.value .float]
  | anyFromBool | stringFromBool | printBool => [.value .bool]
  | anyFromColor | stringFromColor | printColor | termSetFgColor | termSetBgColor | termSetClearColor =>
    [.value .color]
  | anyFromString | stringToInteger | stringToFloat | stringLength | stringOrd | printString =>
    [.value .string]
  | anyFromList | listLength | printList => [.value .list]
  | integerFromAny | floatFromAny | boolFromAny | colorFromAny | stringFromAny | listFromAny
  | anyTypeName | printAny => [.value .any]
  | anyIsEq => [.value .any, .value .any]
  | stringFromLiteral | printLiteral => [.text]
  | stringJoin | stringIsEq => [.value .string, .value .string]
  | stringLetterIn => [.value .integer, .value .string]
  | stringSubstring => [.value .integer, .value .integer, .value .string]
  | listAdd => [.value .list, .element]
  | listGet => [.value .list, .value .integer]
  | listSet => [.value .list, .value .integer, .element]
  | termSetCursor | random | intPow => [.value .integer, .value .integer]
  | floatPow | floatRem => [.value .float, .value .float]
  | math => [.value .integer, .value .float]
  | _ => []

/-- Whether an entry point may be called on contents of some kinds. -/
def Entry.accepts (e : Entry) (cs : List Content) : Bool :=
  match e with
  | addTempRoot => cs = [.value .string] ∨ cs = [.value .list] ∨ cs = [.value .any]
  | e => cs = e.operands

def Entry.yields : Entry → Content
  | rootBegin | rootEnd | rootSave | rootRestore | flush | addRoot | addTempRoot | collect | listAdd
  | listSet | termSetFgColor | termSetBgColor | termResetColor | termSetClearColor | termClear
  | termSetCursor => .void
  | pollStop | boolFromAny | anyIsEq | stringIsEq => .value .bool
  | anyNothing | anyFromInteger | anyFromFloat | anyFromBool | anyFromColor | anyFromString
  | anyFromList | listGet => .value .any
  | floatFromAny | stringToFloat | floatPow | floatRem | math => .value .float
  | colorFromAny => .value .color
  | stringFromAny | anyTypeName | stringFromLiteral | stringFromInteger | stringFromFloat
  | stringFromBool | stringFromColor | stringJoin | stringLetterIn | stringSubstring | stringChr
  | termInput | termGetChar => .value .string
  | listFromAny | listNew => .value .list
  | _ => .value .integer

theorem Entry.content_run (e : Entry) (args : List Value) (s : Session) : (e.run args s).1.content = e.yields := by
  cases e with
  | addRoot =>
    simp only [Entry.run]
    split <;> rfl
  | _ => rfl

/-! ### Instructions without bodies -/

def Instr.dst? : Instr → Option Reg
  | .constant d _ => some d
  | .unary d _ _ => some d
  | .binary d _ _ _ => some d
  | .element d _ => some d
  | .load d _ _ => some d
  | .address d _ => some d
  | .entry d _ _ => some d
  | .call d _ _ => some d
  | _ => none

theorem Instr.isLeaf_of_dst? {i : Instr} (h : i.dst? = some d) : i.isLeaf = true := by
  cases i <;> first | rfl | cases h

namespace Typing

/-- A register of a kind that has been written. -/
def Has (T : List Content) (D : List Reg) (r : Reg) (c : Content) : Prop :=
  T[r]? = some c ∧ r ∈ D

def HasAll (T : List Content) (D : List Reg) (known : List (Reg × Content)) : Prop :=
  ∀ x ∈ known, Has T D x.1 x.2

/-- What the code of a function relies on: the numbers of parameters of the functions that can be called, and
whether it is the main function, which returns no value. -/
structure Setting where
  arity : Nat → Option Nat
  main : Bool

/-- An instruction without bodies that touches no variable finds its operands written, at kinds that it
accepts, and writes its result into a register for it. -/
inductive Leaf (ctx : Setting) (T : List Content) (D : List Reg) : Instr → Prop where
  | constant {d : Reg} {v : Value} : T[d]? = some v.content → Leaf ctx T D (.constant d v)
  | unary {d r : Reg} {op : UnaryOp} {c : Content} : Has T D r c → op.accepts c = true →
      T[d]? = some (.value op.result) → Leaf ctx T D (.unary d op r)
  | binary {d l r : Reg} {op : BinaryOp} {c c' : Content} : Has T D l c → Has T D r c' →
      op.accepts c c' = true → T[d]? = some (.value op.result) → Leaf ctx T D (.binary d op l r)
  | element : Has T D r (.value ty) → T[d]? = some .element → Leaf ctx T D (.element d r)
  | address : T[d]? = some .place → Leaf ctx T D (.address d pl)
  | entry {d : Reg} {e : Entry} {args : List Reg} {known : List (Reg × Content)} :
      HasAll T D known → args = known.map Prod.fst → e.accepts (known.map Prod.snd) = true →
      T[d]? = some e.yields → Leaf ctx T D (.entry d e args)
  | call {d : Reg} {f : Nat} {args : List Reg} : ctx.arity f = some args.length →
      (∀ r ∈ args, Has T D r (.value .any)) → T[d]? = some (.value .any) → Leaf ctx T D (.call d f args)
  | poll : Leaf ctx T D .poll
  | ret : ctx.main = true → Leaf ctx T D (.ret none)
  | retValue {r : Reg} : Has T D r (.value .any) → Leaf ctx T D (.ret (some r))

/-- Code without bodies that touches no variable, with the registers written before and after it. -/
inductive Line (ctx : Setting) (T : List Content) : List Reg → List Instr → List Reg → Prop where
  | nil : Line ctx T D [] D
  | cons {D D' : List Reg} {i : Instr} {is : List Instr} : Leaf ctx T D i →
      Line ctx T (i.dst?.toList ++ D) is D' → Line ctx T D (i :: is) D'

section

variable {ctx : Setting} {T : List Content} {D D' : List Reg}

theorem getElem?_mono {α : Type} {l l' : List α} {i : Nat} {a : α} (hl : l <+: l') (h : l[i]? = some a) :
    l'[i]? = some a := by
  obtain ⟨more, rfl⟩ := hl
  rw [List.getElem?_append_left (List.getElem?_eq_some_iff.mp h).1, h]

theorem Has.mono {r : Reg} {c : Content} (h : Has T D r c) (hT : T <+: T') (hD : D ⊆ D') : Has T' D' r c :=
  ⟨getElem?_mono hT h.1, hD h.2⟩

@[simp] theorem HasAll.nil : HasAll T D [] := List.forall_mem_nil _

theorem HasAll.mono (h : HasAll T D known) (hT : T <+: T') (hD : D ⊆ D') : HasAll T' D' known :=
  fun x hx => (h x hx).mono hT hD

theorem Leaf.mono {i : Instr} (h : Leaf ctx T D i) (hT : T <+: T') (hD : D ⊆ D') : Leaf ctx T' D' i := by
  cases h with
  | constant hd => exact .constant (getElem?_mono hT hd)
  | unary hr hop hd => exact .unary (hr.mono hT hD) hop (getElem?_mono hT hd)
  | binary hl hr hop hd => exact .binary (hl.mono hT hD) (hr.mono hT hD) hop (getElem?_mono hT hd)
  | element hr hd => exact .element (hr.mono hT hD) (getElem?_mono hT hd)
  | address hd => exact .address (getElem?_mono hT hd)
  | entry hks hargs he hd => exact .entry (hks.mono hT hD) hargs he (getElem?_mono hT hd)
  | call hf hargs hd =>
    exact .call hf (fun r hr => (hargs r hr).mono hT hD) (getElem?_mono hT hd)
  | poll => exact .poll
  | ret hmain => exact .ret hmain
  | retValue hr => exact .retValue (hr.mono hT hD)

theorem Leaf.isLeaf (h : Leaf ctx T D i) : i.isLeaf = true := by
  cases h <;> rfl

theorem Line.append (h : Line ctx T D is D') (h' : Line ctx T D' js D'') : Line ctx T D (is ++ js) D'' := by
  induction h with
  | nil => exact h'
  | cons hi _ ih => exact .cons hi (ih h')

theorem Line.mono (h : Line ctx T D is D') (hT : T <+: T') : Line ctx T' D is D' := by
  induction h with
  | nil => exact .nil
  | cons hi _ ih => exact .cons (hi.mono hT (List.Subset.refl _)) ih

theorem Line.subset (h : Line ctx T D is D') : D ⊆ D' := by
  induction h with
  | nil => exact List.Subset.refl _
  | cons _ _ ih => exact fun r hr => ih (List.mem_append_right _ hr)

end

end Typing

end Blockwork
