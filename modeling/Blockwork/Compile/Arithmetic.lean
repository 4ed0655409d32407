import Blockwork.Compile.Cast
import Blockwork.Number.MathFunction

/-! # Arithmetic and comparison blocks

The left operand picks the arithmetic: floats when it is a float, integers otherwise. -/

namespace Blockwork.Lower

inductive Division where
  | quotient
  | remainder
  deriving DecidableEq, Repr

/-- Division by a number written in the program. Zero is refused, and minus one never reaches the
machine's division. -/
def divideLiteral (d : Division) (left : Reg) (n : Int64) (loc : Location) : Lower Reg :=
  if n = 0 then fail .divisionByZero loc
  else if n = -1 then
    match d with
    | .quotient => unary .negate left
    | .remainder => constant (.integer 0)
  else do
    let right ← constant (.integer n)
    match d with
    | .quotient => binary .machineDiv left right
    | .remainder => binary .machineRem left right

/-- Integer division. A divisor known only when the program runs is guarded. -/
def divide (d : Division) (left : Reg) (divisor : Operand) (loc : Location) : Lower Reg :=
  match divisor with
  | .literal s => divideLiteral d left (Text.leadingInt (Text.ofString s)) loc
  | divisor => do
    let right ← toInteger divisor loc
    match d with
    | .quotient => binary .div left right
    | .remainder => binary .rem left right

def byLeftOperand (left right : Operand) (loc : Location) (result : ValueType → ValueType)
    (floats : Reg → Reg → Lower Reg) (integers : Reg → Operand → Lower Reg) : Lower Operand :=
  match left with
  | .reg .float l => do
    let r ← toFloat right loc
    return .reg (result .float) (← floats l r)
  | left => do
    let l ← toInteger left loc
    return .reg (result .integer) (← integers l right)

def arithmetic (floatOp intOp : BinaryOp) (left right : Operand) (loc : Location) : Lower Operand :=
  byLeftOperand left right loc id (binary floatOp) fun l right => do
    binary intOp l (← toInteger right loc)

def quotient (left right : Operand) (loc : Location) : Lower Operand :=
  byLeftOperand left right loc id (binary .floatDiv) fun l right => divide .quotient l right loc

def remainder (left right : Operand) (loc : Location) : Lower Operand :=
  byLeftOperand left right loc id (fun l r => call .floatRem [l, r]) fun l right =>
    divide .remainder l right loc

def power (left right : Operand) (loc : Location) : Lower Operand :=
  byLeftOperand left right loc id (fun l r => call .floatPow [l, r]) fun l right => do
    call .intPow [l, ← toInteger right loc]

def ordering (c : Comparison) (left right : Operand) (loc : Location) : Lower Operand :=
  byLeftOperand left right loc (fun _ => .bool) (binary (.floatCompare c)) fun l right => do
    binary (.compare c) l (← toInteger right loc)

def mathFunction (label x : Operand) (loc : Location) : Lower Operand :=
  match label with
  | .literal name =>
    match MathFunction.ofName? name with
    | none => fail (.unknownMath name) loc
    | some f => do
      let x ← toFloat x loc
      let index ← constant (.integer f.index)
      return .reg .float (← call .math [index, x])
  | label => fail (.expectedType label.dataType .literal) loc

def piBits : UInt64 := 0x400921FB54442D18

/-! ### Equality -/

def equalValues (ty : ValueType) (a b : Reg) : Lower Reg :=
  match ty with
  | .integer => binary (.compare .equal) a b
  | .color => binary (.compare .equal) a b
  | .bool => binary .boolEqual a b
  | .list => binary .pointerEqual a b
  | .float => binary (.floatCompare .equal) a b
  | .string => call .stringIsEq [a, b]
  | .any => call .anyIsEq [a, b]

/-- Truth value whether two operands that are neither texts nor nothing are equal: never when their
types differ. -/
def equalOperands (left right : Operand) (loc : Location) : Lower Reg :=
  match left, right with
  | .reg a l, .reg b r => if a = b then equalValues a l r else constant (.bool false)
  | left, _ => fail (.cannotCompare left.dataType) loc

/-- Truth value whether two operands are equal. A text is cast to the type of the other side. -/
def equals (left right : Operand) (loc : Location) : Lower Reg :=
  match left, right with
  | .blockdef _, _ => fail (.cannotCompare .blockdef) loc
  | _, .blockdef _ => fail (.cannotCompare .blockdef) loc
  | .literal a, .literal b => constant (.bool (a == b))
  | .nothing, .nothing => constant (.bool true)
  | .nothing, _ => constant (.bool false)
  | _, .nothing => constant (.bool false)
  | .literal _, other => do equalOperands (← castTo left other.dataType loc) other loc
  | other, .literal _ => do equalOperands other (← castTo right other.dataType loc) loc
  | left, right => equalOperands left right loc

end Blockwork.Lower
