import Blockwork.Text.Binary64

/-! # Number functions

The functions a program can pick from the list of the `math` block, and integer power. -/

namespace Blockwork

inductive MathFunction where
  | sqrt
  | round
  | floor
  | ceil
  | sin
  | cos
  | tan
  | asin
  | acos
  | atan
  | ln
  | log10
  | abs
  | exp
  deriving DecidableEq, Repr

namespace MathFunction

def all : List MathFunction :=
  [sqrt, round, floor, ceil, sin, cos, tan, asin, acos, atan, ln, log10, abs, exp]

def name : MathFunction → String
  | sqrt => "sqrt"
  | round => "round"
  | floor => "floor"
  | ceil => "ceil"
  | sin => "sin"
  | cos => "cos"
  | tan => "tan"
  | asin => "asin"
  | acos => "acos"
  | atan => "atan"
  | ln => "ln"
  | log10 => "log10"
  | abs => "abs"
  | exp => "exp"

def ofName? (s : String) : Option MathFunction :=
  all.find? (·.name == s)

def ofIndex? (i : Int64) : Option MathFunction :=
  if i.toInt < 0 then none else all[i.toInt.toNat]?

def index (f : MathFunction) : Int64 :=
  Int64.ofNat (all.idxOf f)

def apply (f : MathFunction) (x : Float) : Float :=
  match f with
  | sqrt => x.sqrt
  | round => x.round
  | floor => x.floor
  | ceil => x.ceil
  | sin => x.sin
  | cos => x.cos
  | tan => x.tan
  | asin => x.asin
  | acos => x.acos
  | atan => x.atan
  | ln => x.log
  | log10 => x.log10
  | abs => x.abs
  | exp => x.exp

def applyIndex (i : Int64) (x : Float) : Float :=
  match ofIndex? i with
  | some f => f.apply x
  | none => Binary64.nan

def isExact : MathFunction → Bool
  | sqrt => true
  | round => true
  | floor => true
  | ceil => true
  | abs => true
  | _ => false

end MathFunction

namespace Number

def powLoop : Nat → Int64 → Nat → Int64 → Int64
  | 0, _, _, acc => acc
  | fuel + 1, base, n, acc =>
    if n = 0 then acc
    else powLoop fuel (base * base) (n / 2) (if n % 2 = 1 then acc * base else acc)

def intPow (base exponent : Int64) : Int64 :=
  if exponent.toInt < 0 then 0 else powLoop 64 base exponent.toInt.toNat 1

end Number

end Blockwork
