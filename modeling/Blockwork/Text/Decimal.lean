import Blockwork.Text.Integer
import Blockwork.Text.Binary64

/-! # Floating-point numbers as text

A float is written with six places after the point, rounded from its exact binary value. Reading
never fails. -/

namespace Blockwork.Text

/-! ### Writing -/

def places : Nat := 6

def padded (width n : Nat) : List Char :=
  let ds := Nat.toDigits 10 n
  List.replicate (width - ds.length) '0' ++ ds

/-- Text of `m · 2 ^ e` to the given places, a tie going to the even last digit. -/
def fixedMagnitude (m : Nat) (e : Int) : List Char :=
  let scaled := Binary64.scaledDiv (m * Nat.pow 10 places) 1 (-e)
  Nat.toDigits 10 (scaled / Nat.pow 10 places) ++ '.' :: padded places (scaled % Nat.pow 10 places)

/-- Text of a float. A set sign bit is always shown, except on NaN. -/
def formatFloat (x : Float) : Bytes :=
  match Binary64.classify x with
  | .nan => ofString "NaN"
  | .infinite neg => ofString (if neg then "-inf" else "inf")
  | .finite p => encode ((if p.neg then ['-'] else []) ++ fixedMagnitude p.m p.e)

/-! ### Reading -/

/-- The parts of a decimal number: sign, digits before and after the point, and exponent. -/
structure Numeral where
  neg : Bool
  whole : List Char
  frac : List Char
  exponent : Int
  deriving DecidableEq, Repr

def digitsNat (ds : List Char) : Nat :=
  ds.foldl (fun v d => v * 10 + (d.toNat - '0'.toNat)) 0

/-- Digits that can decide how a number is rounded: no double, and no midpoint between two of them, has
more significant digits. -/
def decisiveDigits : Nat := 800

/-- The double a numeral denotes. Of the digits behind the decisive ones it only matters whether all of
them are zero; if not, a single one stands for them. -/
def Numeral.value (n : Numeral) : Float :=
  let digits := (n.whole ++ n.frac).dropWhile (· == '0')
  let kept := digitsNat (digits.take decisiveDigits)
  let rest := digits.drop decisiveDigits
  let e := n.exponent - Int.ofNat n.frac.length + Int.ofNat rest.length
  if rest.all (· == '0') then Binary64.ofDecimal n.neg kept e
  else Binary64.ofDecimal n.neg (kept * 10 + 1) (e - 1)

def takeSign : List Char → Bool × List Char
  | '-' :: rest => (true, rest)
  | '+' :: rest => (false, rest)
  | rest => (false, rest)

/-- An exponent that has reached this takes no further digits. -/
def exponentBound : Nat := 65536

def exponentValue (ds : List Char) : Nat :=
  ds.foldl (fun v d => if v < exponentBound then v * 10 + (d.toNat - '0'.toNat) else v) 0

/-- Read an exponent, zero when no complete one stands at the front. -/
def leadingExponent : List Char → Int
  | c :: rest =>
    if c = 'e' ∨ c = 'E' then
      let (neg, digits) := takeSign rest
      let value := Int.ofNat (exponentValue (digits.takeWhile Char.isDigit))
      if neg then -value else value
    else 0
  | [] => 0

/-- The longest decimal number at the front of a text, if there is one. -/
def leadingNumeral? (cs : List Char) : Option Numeral :=
  let (neg, rest) := takeSign cs
  let whole := rest.takeWhile Char.isDigit
  match rest.dropWhile Char.isDigit with
  | '.' :: tail =>
    let frac := tail.takeWhile Char.isDigit
    if whole.isEmpty && frac.isEmpty then none
    else some ⟨neg, whole, frac, leadingExponent (tail.dropWhile Char.isDigit)⟩
  | tail => if whole.isEmpty then none else some ⟨neg, whole, [], leadingExponent tail⟩

def leadingFloat (s : Bytes) : Float :=
  match leadingNumeral? (trimStart (lossy s)) with
  | some n => n.value
  | none => Binary64.ofMagnitude false 0

end Blockwork.Text
