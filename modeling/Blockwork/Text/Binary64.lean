/-! # Exact arithmetic on doubles

A finite double is `± m · 2 ^ e` with natural `m` and integer `e`. The conversions here work on that
form in exact arithmetic, so they are correctly rounded and can be computed in proofs. -/

namespace Blockwork.Binary64

structure Parts where
  neg : Bool
  m : Nat
  e : Int
  deriving DecidableEq, Repr

inductive Class where
  | nan
  | infinite (neg : Bool)
  | finite (p : Parts)
  deriving DecidableEq, Repr

def classify (x : Float) : Class :=
  let bits := x.toBits.toNat
  let neg := bits / Nat.pow 2 63 == 1
  let field := bits / Nat.pow 2 52 % 2048
  let frac := bits % Nat.pow 2 52
  if field = 2047 then (if frac = 0 then .infinite neg else .nan)
  else if field = 0 then .finite ⟨neg, frac, -1074⟩
  else .finite ⟨neg, frac + Nat.pow 2 52, Int.ofNat field - 1075⟩

def ofMagnitude (neg : Bool) (magnitude : Nat) : Float :=
  Float.ofBits (UInt64.ofNat (magnitude + (if neg then Nat.pow 2 63 else 0)))

def infinity (neg : Bool) : Float :=
  ofMagnitude neg (2047 * Nat.pow 2 52)

def nan : Float :=
  Float.ofBits 0x7FF8000000000000

def roundDiv (num den : Nat) : Nat :=
  let q := num / den
  let r := num % den
  if 2 * r < den then q
  else if den < 2 * r then q + 1
  else if q % 2 = 0 then q else q + 1

def scaledDiv (num den : Nat) (e : Int) : Nat :=
  if e ≥ 0 then roundDiv num (den * Nat.pow 2 e.toNat) else roundDiv (num * Nat.pow 2 (-e).toNat) den

def exponentOf (num den : Nat) : Int :=
  let e := Int.ofNat num.log2 - Int.ofNat den.log2 - 52
  let small :=
    if e ≥ 0 then num < den * Nat.pow 2 e.toNat * Nat.pow 2 52
    else num * Nat.pow 2 (-e).toNat < den * Nat.pow 2 52
  max (-1074) (if small then e - 1 else e)

/-- The double nearest to `± num / den`, a tie going to the even significand. Rounding up to the next
power of two carries into the exponent field by itself. -/
def ofRatio (neg : Bool) (num den : Nat) : Float :=
  if num = 0 then ofMagnitude neg 0
  else
    let e := exponentOf num den
    let magnitude := (e + 1074).toNat * Nat.pow 2 52 + scaledDiv num den e
    if magnitude < 2047 * Nat.pow 2 52 then ofMagnitude neg magnitude else infinity neg

/-- The double nearest to `± m · 10 ^ e`. Exponents that are certain to overflow or vanish are decided
from the number of digits alone. -/
def ofDecimal (neg : Bool) (m : Nat) (e : Int) : Float :=
  if m = 0 then ofMagnitude neg 0
  else
    let top := Int.ofNat (Nat.toDigits 10 m).length + e
    if top > 400 then infinity neg
    else if top < -400 then ofMagnitude neg 0
    else if e ≥ 0 then ofRatio neg (m * Nat.pow 10 e.toNat) 1
    else ofRatio neg m (Nat.pow 10 (-e).toNat)

def ofInt (v : Int64) : Float :=
  ofRatio (v.toInt < 0) v.toInt.natAbs 1

def wholePart (m : Nat) (e : Int) : Nat :=
  if e ≥ 0 then m * Nat.pow 2 e.toNat else m / Nat.pow 2 (-e).toNat

def saturate (v : Int) : Int64 :=
  if v > Int64.maxValue.toInt then Int64.maxValue
  else if v < Int64.minValue.toInt then Int64.minValue
  else Int64.ofInt v

/-- Truncate to an integer; values out of range go to the nearest bound and NaN goes to zero. -/
def toInt (x : Float) : Int64 :=
  match classify x with
  | .nan => 0
  | .infinite neg => if neg then Int64.minValue else Int64.maxValue
  | .finite p =>
    let whole := Int.ofNat (wholePart p.m p.e)
    saturate (if p.neg then -whole else whole)

/-- Remainder of the truncated division, with the sign of the dividend. The division of the two
significands on their common exponent is exact. -/
def rem (x y : Float) : Float :=
  match classify x, classify y with
  | .nan, _ => nan
  | _, .nan => nan
  | .infinite _, _ => nan
  | .finite _, .infinite _ => x
  | .finite p, .finite q =>
    if q.m = 0 then nan
    else
      let e := min p.e q.e
      let r := (p.m * Nat.pow 2 (p.e - e).toNat) % (q.m * Nat.pow 2 (q.e - e).toNat)
      if e ≥ 0 then ofRatio p.neg (r * Nat.pow 2 e.toNat) 1 else ofRatio p.neg r (Nat.pow 2 (-e).toNat)

end Blockwork.Binary64
