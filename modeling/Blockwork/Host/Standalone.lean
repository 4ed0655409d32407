import Blockwork.Session.Basic
import Blockwork.Terminal.Size

/-! # Standalone runs

A built program runs once against its standard streams, with the default memory limits and the
terminal size of its environment. -/

namespace Blockwork

def defaultMinMemory : Nat := 65536

def defaultMaxMemory : Nat := 268435456

namespace Session

def standalone (columns lines : Option String) (input : Bytes := []) : Session :=
  { memory := Memory.new defaultMinMemory defaultMaxMemory
    terminal := { size := TermSize.ofEnvironment columns lines }
    input }

def exitCode (s : Session) : Nat :=
  if s.abort.isSome then 1 else 0

def errorText (s : Session) : String :=
  match s.abort with
  | some e => e.message ++ "\n"
  | none => ""

end Session

end Blockwork
