import Blockwork.Compile.DataType
import Blockwork.Entry.Basic
import Blockwork.Number.Division
import Blockwork.Text.Binary64

/-! # Code

Instructions over typed registers, with loops and branches as nested bodies. Every function has its
own registers and slots; cells are shared by the whole program. -/

namespace Blockwork

/-! ### Operations on registers -/

inductive UnaryOp where
  | negate
  | bitNot
  | not
  | isNonzero
  | isPositive
  | floatIsTrue
  | integerOfBool
  | integerOfFloat
  | integerOfColor
  | floatOfInteger
  | colorOfInteger
  | colorOfFloat
  | colorOfBool
  deriving DecidableEq, Repr

inductive Comparison where
  | less
  | lessEq
  | more
  | moreEq
  | equal
  deriving DecidableEq, Repr

inductive BinaryOp where
  | add
  | sub
  | mul
  | machineDiv
  | machineRem
  | div
  | rem
  | bitAnd
  | bitOr
  | bitXor
  | floatAdd
  | floatSub
  | floatMul
  | floatDiv
  | compare (c : Comparison)
  | floatCompare (c : Comparison)
  | boolEqual
  | pointerEqual
  | and
  | or
  deriving DecidableEq, Repr

def colorWhite : Int64 := 0xffffffff

def colorBlack : Int64 := 0x000000ff

namespace UnaryOp

def run (op : UnaryOp) (v : Value) : Value :=
  match op with
  | negate => .integer (-v.toInteger)
  | bitNot => .integer (~~~v.toInteger)
  | not => .bool (!v.toBool)
  | isNonzero => .bool (v.toInteger != 0)
  | isPositive => .bool (0 < v.toInteger)
  | floatIsTrue => .bool (v.toFloat != 0)
  | integerOfBool => .integer (if v.toBool then 1 else 0)
  | integerOfFloat => .integer (Binary64.toInt v.toFloat)
  | integerOfColor => .integer v.toInteger
  | floatOfInteger => .float (Binary64.ofInt v.toInteger)
  | colorOfInteger => .color v.toInteger
  | colorOfFloat => .color (Binary64.toInt v.toFloat)
  | colorOfBool => .color (if v.toBool then colorWhite else colorBlack)

end UnaryOp

namespace Comparison

def ofIntegers (c : Comparison) (a b : Int64) : Bool :=
  match c with
  | less => a < b
  | lessEq => a ≤ b
  | more => b < a
  | moreEq => b ≤ a
  | equal => a == b

/-- Comparison of two floats; none holds of a NaN. -/
def ofFloats (c : Comparison) (a b : Float) : Bool :=
  match c with
  | less => a < b
  | lessEq => a ≤ b
  | more => b < a
  | moreEq => b ≤ a
  | equal => a == b

end Comparison

namespace BinaryOp

def run (op : BinaryOp) (v w : Value) : Value :=
  match op with
  | add => .integer (v.toInteger + w.toInteger)
  | sub => .integer (v.toInteger - w.toInteger)
  | mul => .integer (v.toInteger * w.toInteger)
  | machineDiv => .integer ((Number.machineDiv? v.toInteger w.toInteger).getD 0)
  | machineRem => .integer ((Number.machineRem? v.toInteger w.toInteger).getD 0)
  | div => .integer (Number.quotient v.toInteger w.toInteger)
  | rem => .integer (Number.remainder v.toInteger w.toInteger)
  | bitAnd => .integer (v.toInteger &&& w.toInteger)
  | bitOr => .integer (v.toInteger ||| w.toInteger)
  | bitXor => .integer (v.toInteger ^^^ w.toInteger)
  | floatAdd => .float (v.toFloat + w.toFloat)
  | floatSub => .float (v.toFloat - w.toFloat)
  | floatMul => .float (v.toFloat * w.toFloat)
  | floatDiv => .float (v.toFloat / w.toFloat)
  | compare c => .bool (c.ofIntegers v.toInteger w.toInteger)
  | floatCompare c => .bool (c.ofFloats v.toFloat w.toFloat)
  | boolEqual => .bool (v.toBool == w.toBool)
  | pointerEqual => .bool (v.pointer = w.pointer)
  | and => .bool (v.toBool && w.toBool)
  | or => .bool (v.toBool || w.toBool)

end BinaryOp

/-! ### Instructions -/

inductive Place where
  | slot (i : Nat)
  | global (i : Nat)
  deriving DecidableEq, Repr

inductive Instr where
  | constant (dst : Reg) (v : Value)
  | unary (dst : Reg) (op : UnaryOp) (src : Reg)
  | binary (dst : Reg) (op : BinaryOp) (left right : Reg)
  | element (dst src : Reg)
  | load (dst : Reg) (ty : ValueType) (place : Place)
  | store (place : Place) (src : Reg)
  | address (dst : Reg) (place : Place)
  | entry (dst : Reg) (e : Entry) (args : List Reg)
  | call (dst : Reg) (function : Nat) (args : List Reg)
  | poll
  | ret (result : Option Reg)
  | rooted (body : List Instr)
  | ifThen (cond : Reg) (body : List Instr)
  /-- Run a body as often as a register says, read once. -/
  | countLoop (count : Reg) (body : List Instr)
  | whileLoop (test : List Instr) (cond : Reg) (body : List Instr)
  | foreverLoop (body : List Instr)
  deriving Inhabited

/-- A lowered function. Its parameters arrive in its first registers. -/
structure FunctionCode where
  registers : Nat
  slots : Nat
  code : List Instr
  deriving Inhabited

structure ProgramCode where
  main : FunctionCode
  functions : Array FunctionCode
  cells : Nat
  deriving Inhabited

end Blockwork
