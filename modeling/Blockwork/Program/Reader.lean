import Blockwork.JsonText.Shape
import Blockwork.Program.Basic

/-! # Reading programs

Programs are stored as JSON. Brackets may be nested up to a limit; the depth that is left is passed
down, so that reading ends. -/

namespace Blockwork.Program

open JsonText

def nestingLimit : Nat := 127

/-! ### Parts of a record -/

def firstField {α β : Type} (name : String) (value : Reader α) : Member (Option α × Option β) :=
  ⟨name, fun st => st.1.isSome, fun st => do return (some (← value), st.2)⟩

def secondField {α β : Type} (name : String) (value : Reader β) : Member (Option α × Option β) :=
  ⟨name, fun st => st.2.isSome, fun st => do return (st.1, some (← value))⟩

def finishBlock : Option String × Option (List Argument) → Option Block
  | (some id, args) => some (.mk id (args.getD []))
  | (none, _) => none

mutual

def readBlock : Nat → Reader Block
  | 0 => record none (none, none) finishBlock
  | depth + 1 =>
    record (some [firstField "id" string, secondField "args" (readArguments depth)]) (none, none)
      finishBlock

def readArguments : Nat → Reader (List Argument)
  | 0 => list none
  | depth + 1 => list (some (readArgument depth))

def readArgument : Nat → Reader Argument
  | 0 => tagged none
  | depth + 1 =>
    tagged (some
      [("text", do return .text (← string)),
       ("const", do return .constant (← string)),
       ("block", do return .block (← readBlock depth)),
       ("blockdef", do return .blockdef (← string)),
       ("color", do return .color (← string))])

end

/-- Nesting that is left inside one bracket, if there may be one. -/
def inside {α : Type} (depth : Nat) (r : Nat → α) : Option α :=
  match depth with
  | 0 => none
  | depth + 1 => some (r depth)

def readChain (depth : Nat) : Reader Chain :=
  record
    (inside depth fun depth =>
      [⟨"blocks", Option.isSome, fun _ => do return some (← list (inside depth readBlock))⟩])
    none (Option.map Chain.mk)

def readInput (depth : Nat) : Reader Input :=
  tagged (inside depth fun _ =>
    [("text", do return .label (← string)), ("arg", do return .parameter (← string))])

def readBlockdef (depth : Nat) : Reader Blockdef :=
  record
    (inside depth fun depth =>
      [firstField "id" string, secondField "inputs" (list (inside depth readInput))])
    (none, none)
    fun st => st.1.map fun id => ⟨id, st.2.getD []⟩

def readProgram (depth : Nat) : Reader Program :=
  record
    (inside depth fun depth =>
      [firstField "chains" (list (inside depth readChain)),
       secondField "blockdefs" (list (inside depth readBlockdef))])
    (none, none)
    fun st => some ⟨st.1.getD [], st.2.getD []⟩

def ofJson (s : String) (limit : Nat := nestingLimit) : Except Fault Program :=
  whole (readProgram limit) s.toList

end Blockwork.Program
