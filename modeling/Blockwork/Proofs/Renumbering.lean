import Blockwork.Proofs.Runs

/-! # Functions under other numbers
Calls name functions by number. -/

namespace Blockwork

open Instr

mutual

def Instr.renumber (f : Nat → Nat) : Instr → Instr
  | .call dst i args => .call dst (f i) args
  | .rooted body => .rooted (renumberAll f body)
  | .ifThen cond body => .ifThen cond (renumberAll f body)
  | .countLoop count body => .countLoop count (renumberAll f body)
  | .whileLoop test cond body => .whileLoop (renumberAll f test) cond (renumberAll f body)
  | .foreverLoop body => .foreverLoop (renumberAll f body)
  | i => i

def Instr.renumberAll (f : Nat → Nat) : List Instr → List Instr
  | [] => []
  | i :: is => i.renumber f :: renumberAll f is

end

theorem Instr.renumberAll_eq_map (f : Nat → Nat) (is : List Instr) : renumberAll f is = is.map (renumber f) := by
  induction is with
  | nil => rfl
  | cons i is ih => rw [renumberAll, ih, List.map_cons]

def FunctionCode.renumber (f : Nat → Nat) (c : FunctionCode) : FunctionCode :=
  { c with code := renumberAll f c.code }

/-- The second program is the first with every function under another number. -/
structure ProgramCode.Renumbers (f : Nat → Nat) (p q : ProgramCode) : Prop where
  main : q.main = p.main.renumber f
  functions : ∀ i, q.functions.getD (f i) default = (p.functions.getD i default).renumber f
  cells : q.cells = p.cells

def Kont.renumber (f : Nat → Nat) : Kont → Kont
  | .next rest => .next (renumberAll f rest)
  | .closeRoots rest => .closeRoots (renumberAll f rest)
  | .countLoop left body rest => .countLoop left (renumberAll f body) (renumberAll f rest)
  | .whileTest test cond body rest =>
    .whileTest (renumberAll f test) cond (renumberAll f body) (renumberAll f rest)
  | .whileBody test cond body rest =>
    .whileBody (renumberAll f test) cond (renumberAll f body) (renumberAll f rest)
  | .foreverLoop body => .foreverLoop (renumberAll f body)

def Activation.renumber (f : Nat → Nat) (a : Activation) : Activation :=
  { a with code := renumberAll f a.code, konts := a.konts.map (Kont.renumber f) }

def Machine.renumber (f : Nat → Nat) (m : Machine) : Machine :=
  { m with active := m.active.renumber f, waiting := m.waiting.map (Activation.renumber f) }

def Progress.renumber (f : Nat → Nat) : Progress → Progress
  | .running m => .running (m.renumber f)
  | .finished s => .finished s

def Progress.outcome : Progress → Session × Bool
  | .running m => (m.session, false)
  | .finished s => (s, true)

theorem Progress.outcome_renumber (f : Nat → Nat) (r : Progress) : (r.renumber f).outcome = r.outcome := by
  cases r <;> rfl

namespace Machine

variable {f : Nat → Nat} {p q : ProgramCode} {s : Session} {a : Activation}

theorem countRound_renumber (counter : Int64) (body rest : List Instr) :
    (a.renumber f).countRound counter (renumberAll f body) (renumberAll f rest) =
      (a.countRound counter body rest).renumber f := by
  simp only [Activation.countRound]
  split
  · rfl
  · rfl

theorem leave_renumber (v : Value) :
    leave s (ws.map (Activation.renumber f)) (a.renumber f) v = (leave s ws a v).renumber f := by
  cases ws with
  | nil | cons => rfl

theorem resume_renumber (k : Kont) :
    resume s (ws.map (Activation.renumber f)) (a.renumber f) (k.renumber f) = (resume s ws a k).renumber f := by
  cases k with
  | countLoop left body rest =>
    exact congrArg (goOn s (ws.map (Activation.renumber f))) (countRound_renumber left body rest)
  | whileTest test cond =>
    simp only [resume, Kont.renumber, show (a.renumber f).get cond = a.get cond from rfl]
    split
    · rfl
    · rfl
  | _ => rfl

theorem execute_renumber (h : p.Renumbers f q) (i : Instr) :
    execute q s (ws.map (Activation.renumber f)) (a.renumber f) (i.renumber f) = (execute p s ws a i).renumber f := by
  cases i with
  | call dst fn =>
    simp only [execute, Instr.renumber, h.functions fn]
    rfl
  | poll =>
    simp only [execute, Instr.renumber]
    split
    · exact leave_renumber nothingResult
    · rfl
  | ret result =>
    cases result with
    | none => exact leave_renumber .zero
    | some r => exact leave_renumber (a.get r)
  | ifThen cond =>
    simp only [execute, Instr.renumber, show (a.renumber f).get cond = a.get cond from rfl]
    split
    · rfl
    · rfl
  | countLoop count body =>
    exact congrArg (goOn s (ws.map (Activation.renumber f))) (countRound_renumber _ body a.code)
  | _ => rfl

theorem step_renumber (h : p.Renumbers f q) (m : Machine) : step q (m.renumber f) = (step p m).renumber f := by
  obtain ⟨s, ⟨code, konts, regs, base, dst⟩, ws⟩ := m
  cases code with
  | cons i code => exact execute_renumber (a := ⟨code, konts, regs, base, dst⟩) h i
  | nil =>
    cases konts with
    | cons k konts => exact resume_renumber (a := ⟨[], konts, regs, base, dst⟩) k
    | nil => exact leave_renumber nothingResult

theorem advance_renumber (h : p.Renumbers f q) (host : Host) (m : Machine) (n : Nat) :
    advance q host (m.renumber f) n = (advance p host m n).renumber f := by
  induction n with
  | zero => rfl
  | succ n ih =>
    rw [advance, advance, ih]
    cases advance p host m n with
    | running mn => exact step_renumber h (host.visit n mn)
    | finished => rfl

theorem run_renumber (h : p.Renumbers f q) (fuel : Nat) (m : Machine) : run q fuel (m.renumber f) = run p fuel m := by
  induction fuel generalizing m with
  | zero => rfl
  | succ fuel ih =>
    rw [run, run, step_renumber h]
    cases step p m with
    | running mn => exact ih mn
    | finished => rfl

theorem load_renumber (h : p.Renumbers f q) (s : Session) : load q s = (load p s).renumber f := by
  simp only [load, h.main, h.cells]
  rfl

end Machine

end Blockwork
