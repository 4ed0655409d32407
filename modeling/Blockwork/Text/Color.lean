import Blockwork.Text.Utf8

/-! # Colors as text

A color is a packed word `0xRRGGBBAA`, written `#rrggbbaa`. It may be read with or without its alpha
byte, which defaults to opaque. -/

namespace Blockwork.Text

def hexDigit? (c : Char) : Option Nat :=
  if '0' ≤ c ∧ c ≤ '9' then some (c.toNat - '0'.toNat)
  else if 'a' ≤ c ∧ c ≤ 'f' then some (c.toNat - 'a'.toNat + 10)
  else if 'A' ≤ c ∧ c ≤ 'F' then some (c.toNat - 'A'.toNat + 10)
  else none

def hexValue? (ds : List Char) : Option Nat :=
  ds.foldlM (fun v d => (hexDigit? d).map (v * 16 + ·)) 0

def hexText : Nat → Nat → List Char
  | 0, _ => []
  | width + 1, n => hexText width (n / 16) ++ [Nat.digitChar (n % 16)]

def formatColor (v : Int64) : Bytes :=
  encode ('#' :: hexText 8 (v.toInt % 0x100000000).toNat)

/-- The digits after the mark: at least one, and a plus sign may stand in front of them. -/
def unsignedHex? : List Char → Option Nat
  | [] => none
  | '+' :: ds => if ds.isEmpty then none else hexValue? ds
  | ds => hexValue? ds

/-- Read a color: blanks around it are skipped, then `#` and six or eight places follow. -/
def parseColor (cs : List Char) : Option Int64 :=
  match trim cs with
  | '#' :: hex =>
    match unsignedHex? hex, hex.length with
    | some v, 6 => some (Int64.ofNat (v * 256 + 255))
    | some v, 8 => some (Int64.ofNat v)
    | _, _ => none
  | _ => none

end Blockwork.Text
