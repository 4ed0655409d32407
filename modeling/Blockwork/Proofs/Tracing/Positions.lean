import Blockwork.Proofs.Runs
import Blockwork.Proofs.Trimming.Code

/-! # Positions in a run
The instructions without bodies of a function are numbered in the order in which they stand in its code. -/

namespace Blockwork

open Instr

mutual

def Instr.width : Instr → Nat
  | .rooted body => widthIn body
  | .ifThen _ body => widthIn body
  | .countLoop _ body => widthIn body
  | .whileLoop test _ body => widthIn test + widthIn body
  | .foreverLoop body => widthIn body
  | _ => 1

def Instr.widthIn : List Instr → Nat
  | [] => 0
  | i :: is => i.width + widthIn is

end

namespace Instr

theorem width_of_isLeaf {i : Instr} (h : i.isLeaf = true) : i.width = 1 := by
  cases i with
  | rooted | ifThen | countLoop | whileLoop | foreverLoop => cases h
  | _ => rfl

@[simp] theorem widthIn_append (is js : List Instr) : widthIn (is ++ js) = widthIn is + widthIn js := by
  induction is with
  | nil => simp [widthIn]
  | cons i is ih =>
    simp only [List.cons_append, widthIn, ih]
    omega

theorem widthIn_singleton (i : Instr) : widthIn [i] = i.width := rfl

end Instr

/-- A function that was called and has not returned: which one, the main function being none of the
defined ones; the step it started at; and the number of the instruction it comes to next. -/
structure Invocation where
  function : Option Nat
  birth : Nat
  pc : Nat
  deriving DecidableEq, Repr

def Activation.pcAfter (a : Activation) (pc : Nat) : Nat :=
  match a.code, a.konts with
  | .rooted _ :: _, _ => pc
  | .ifThen cond body :: _, _ => if (a.get cond).toBool then pc else pc + widthIn body
  | .countLoop count body :: _, _ =>
    if (a.get count).toInteger - 1 < 0 then pc + widthIn body else pc
  | .whileLoop _ _ _ :: _, _ => pc
  | .foreverLoop _ :: _, _ => pc
  | _ :: _, _ => pc + 1
  | [], .countLoop left body _ :: _ => if left - 1 < 0 then pc else pc - widthIn body
  | [], .whileTest _ cond body _ :: _ => if (a.get cond).toBool then pc else pc + widthIn body
  | [], .whileBody test _ body _ :: _ => pc - (widthIn test + widthIn body)
  | [], .foreverLoop body :: _ => pc - widthIn body
  | [], _ => pc

namespace Machine

def leaves (m : Machine) : Bool :=
  match m.active.code, m.active.konts with
  | .ret _ :: _, _ => true
  | .poll :: _, _ => m.session.shouldExit
  | [], [] => true
  | _, _ => false

/-- The invocations after step `n`, innermost first. -/
def follow (n : Nat) (m : Machine) : List Invocation → List Invocation
  | [] => []
  | inv :: outer =>
    match m.active.code with
    | .call _ f _ :: _ => ⟨some f, n + 1, 0⟩ :: { inv with pc := inv.pc + 1 } :: outer
    | _ => if m.leaves then outer else { inv with pc := m.active.pcAfter inv.pc } :: outer

/-- The invocations before step `n` of a run beside a host, innermost first. -/
def trail (p : ProgramCode) (h : Host) (m : Machine) : Nat → List Invocation
  | 0 => [⟨none, 0, 0⟩]
  | n + 1 =>
    match advance p h m n with
    | .running m' => follow n (h.visit n m') (trail p h m n)
    | .finished _ => []

theorem trail_succ (hm : advance p h m n = .running m') :
    trail p h m (n + 1) = follow n (h.visit n m') (trail p h m n) := by
  rw [trail, hm]

end Machine

end Blockwork
