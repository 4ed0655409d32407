import Blockwork.Text.Utf8

/-! # Integers as text

Reading takes the longest leading integer and never fails; arithmetic wraps at 64 bits. -/

namespace Blockwork.Text

/-- Blanks skipped in front of an integer: tab, newline, form feed, carriage return and space. -/
def isAsciiBlank (b : UInt8) : Bool :=
  b == 0x09 || b == 0x0A || b == 0x0C || b == 0x0D || b == 0x20

def isDigit (b : UInt8) : Bool :=
  0x30 ≤ b && b ≤ 0x39

def digitsValue (ds : Bytes) : Int64 :=
  ds.foldl (fun v d => v * 10 + Int64.ofNat (d.toNat - 0x30)) 0

/-- Read a leading integer: blanks, at most one sign, then digits. What follows the digits is
ignored and a text without digits reads as zero. -/
def leadingInt (s : Bytes) : Int64 :=
  match s.dropWhile isAsciiBlank with
  | 0x2D :: rest => -digitsValue (rest.takeWhile isDigit)
  | 0x2B :: rest => digitsValue (rest.takeWhile isDigit)
  | rest => digitsValue (rest.takeWhile isDigit)

def formatInt (v : Int64) : Bytes :=
  ofString (toString v.toInt)

def formatBool (v : Bool) : Bytes :=
  ofString (if v then "true" else "false")

def formatList (n : Nat) : Bytes :=
  ofString ("*LIST (" ++ toString n ++ ")*")

end Blockwork.Text
