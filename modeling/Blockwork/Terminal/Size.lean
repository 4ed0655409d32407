import Blockwork.Terminal.Basic
import Blockwork.Text.Decimal

/-! # Terminal size from the environment

Each of the two numbers is taken on its own, and falls back on its own. -/

namespace Blockwork

def Text.wholeInt? (cs : List Char) : Option Int :=
  let (neg, digits) := takeSign cs
  if digits.isEmpty || !digits.all Char.isDigit then none
  else some (if neg then -Int.ofNat (digitsNat digits) else Int.ofNat (digitsNat digits))

namespace TermSize

def dimension? (s : String) : Option Int64 :=
  match Text.wholeInt? (Text.trim s.toList) with
  | some n => if 0 < n ∧ n ≤ Int64.maxValue.toInt then some (Int64.ofInt n) else none
  | none => none

def ofEnvironment (columns lines : Option String) : TermSize :=
  let fallback : TermSize := {}
  { columns := (columns.bind dimension?).getD fallback.columns
    rows := (lines.bind dimension?).getD fallback.rows }

end TermSize

end Blockwork
