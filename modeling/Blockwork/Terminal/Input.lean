import Blockwork.Text.Utf8

/-! # Program input

Reading a line or a single letter from what is left of the input. -/

namespace Blockwork.Input

def dropReturn (line : Bytes) : Bytes :=
  if line.getLast? = some 0x0D then line.dropLast else line

/-- Read a line: what stands before the next newline without a carriage return directly in front of
it, or all of the rest when there is no newline. -/
def readLine (input : Bytes) : Bytes × Bytes :=
  let line := input.takeWhile (· ≠ 0x0A)
  match input.dropWhile (· ≠ 0x0A) with
  | [] => (line, [])
  | _ :: rest => (dropReturn line, rest)

/-- Bytes of the letter that a first byte announces: its leading one bits, between one and four. -/
def letterWidth (b : UInt8) : Nat :=
  if b < 0xC0 then 1
  else if b < 0xE0 then 2
  else if b < 0xF0 then 3
  else 4

/-- Read a letter. A newline reads as empty, and so does the end of the input. A letter cut short by
the end of the input reads as its first byte and uses up the rest. -/
def readLetter : Bytes → Bytes × Bytes
  | [] => ([], [])
  | b :: rest =>
    if b = 0x0A then ([], rest)
    else
      let owed := letterWidth b - 1
      if rest.length < owed then ([b], []) else (b :: rest.take owed, rest.drop owed)

end Blockwork.Input
