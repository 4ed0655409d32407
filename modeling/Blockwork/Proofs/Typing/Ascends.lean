import Blockwork.Proofs.Typing.Content

/-! # Registers in order
Lowering hands out registers in order and writes each of them once. -/

namespace Blockwork

open Instr

def Instr.after (a : Reg) (i : Instr) : Reg :=
  i.dst?.elim a (· + 1)

inductive Ascends : Reg → List Instr → Reg → Prop
  | nil : a ≤ b → Ascends a [] b
  | leaf {a b : Reg} {i : Instr} {is : List Instr} : i.isLeaf = true → (∀ d ∈ i.dst?, a ≤ d) →
      Ascends (i.after a) is b → Ascends a (i :: is) b
  | rooted {a b c : Reg} {body is : List Instr} : Ascends a body c → Ascends c is b → Ascends a (.rooted body :: is) b
  | ifThen {a b c e cond : Reg} {body is : List Instr} : a ≤ e → cond < e → Ascends e body c → Ascends c is b →
      Ascends a (.ifThen cond body :: is) b
  | countLoop {a b c d e count : Reg} {body is : List Instr} : a ≤ e → count < e → Ascends e body c → c ≤ d →
      Ascends (d + 1) is b → Ascends a (.countLoop count body :: .unary d .isPositive count :: is) b
  | whileLoop {a b c e cond : Reg} {test body is : List Instr} : Ascends a test c → Ascends c body e →
      Ascends e is b → Ascends a (.whileLoop test cond body :: is) b
  | foreverLoop {a b c : Reg} {body is : List Instr} : Ascends a body c → Ascends c is b →
      Ascends a (.foreverLoop body :: is) b

namespace Ascends

variable {a b c : Reg} {i : Instr} {is : List Instr}

theorem le (h : Ascends a is b) : a ≤ b := by
  induction h with
  | nil hle => exact hle
  | @leaf a _ i _ _ hd _ ih =>
    unfold after at ih
    cases hdst : i.dst? with
    | none =>
      rw [hdst] at ih
      exact ih
    | some d =>
      rw [hdst] at ih
      exact Nat.le_trans (hd d hdst) (Nat.le_of_succ_le ih)
  | rooted _ _ ih ih' => exact Nat.le_trans ih ih'
  | ifThen hle _ _ _ ih ih' => exact Nat.le_trans hle (Nat.le_trans ih ih')
  | countLoop hle _ _ hcd _ ih ih' =>
    exact Nat.le_trans hle (Nat.le_trans ih (Nat.le_trans hcd (Nat.le_of_succ_le ih')))
  | whileLoop _ _ _ ih ih' ih'' => exact Nat.le_trans ih (Nat.le_trans ih' ih'')
  | foreverLoop _ _ ih ih' => exact Nat.le_trans ih ih'

theorem lower (h : Ascends a is b) (hle : a' ≤ a) : Ascends a' is b := by
  induction h generalizing a' with
  | nil hab => exact .nil (Nat.le_trans hle hab)
  | @leaf a _ i _ hi hd _ ih =>
    refine .leaf hi (fun d hdst => Nat.le_trans hle (hd d hdst)) (ih ?_)
    unfold after
    cases i.dst? with
    | none => exact hle
    | some d => exact Nat.le_refl _
  | rooted _ h' ih => exact .rooted (ih hle) h'
  | ifThen hae hcond h h' => exact .ifThen (Nat.le_trans hle hae) hcond h h'
  | countLoop hae hcount h hcd h' => exact .countLoop (Nat.le_trans hle hae) hcount h hcd h'
  | whileLoop _ h' h'' ih => exact .whileLoop (ih hle) h' h''
  | foreverLoop _ h' ih => exact .foreverLoop (ih hle) h'

theorem append (h : Ascends a is b) (h' : Ascends b js c) : Ascends a (is ++ js) c := by
  induction h with
  | nil hle => exact h'.lower hle
  | leaf hi hd _ ih => exact .leaf hi hd (ih h')
  | rooted h _ _ ih => exact .rooted h (ih h')
  | ifThen hle hcond h _ _ ih => exact .ifThen hle hcond h (ih h')
  | countLoop hle hcount h hcd _ _ ih => exact .countLoop hle hcount h hcd (ih h')
  | whileLoop h₁ h₂ _ _ _ ih => exact .whileLoop h₁ h₂ (ih h')
  | foreverLoop h _ _ ih => exact .foreverLoop h (ih h')

theorem refl (a : Reg) : Ascends a [] a := .nil (Nat.le_refl a)

theorem write (h : i.dst? = some a) : Ascends a [i] (a + 1) := by
  refine .leaf (isLeaf_of_dst? h) (fun d hd => ?_) (.nil ?_)
  · rw [h] at hd
    exact Nat.le_of_eq (Option.some.inj hd)
  · simp [after, h]

theorem silent (hi : i.isLeaf = true) (h : i.dst? = none) : Ascends a [i] a := by
  refine .leaf hi (fun d hd => ?_) (.nil ?_)
  · rw [h] at hd
    cases hd
  · simp [after, h]

end Ascends

end Blockwork
