import Blockwork.Machine.Step

/-! # Runs

A run is judged by what is pending when the main function returns: a fatal condition is a failure,
else a request to stop means that the program was stopped. -/

namespace Blockwork

inductive RunResult where
  | success
  | failure (e : Fatal)
  | stopped
  deriving DecidableEq, Repr

def Session.result (s : Session) : RunResult :=
  match s.abort with
  | some e => .failure e
  | none => if s.stop then .stopped else .success

def stepLimit : Nat := 1000000000000000

def ProgramCode.run (p : ProgramCode) (s : Session) (fuel : Nat := stepLimit) : Option Session :=
  Machine.run p fuel (Machine.load p s)

end Blockwork
