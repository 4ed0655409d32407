import Blockwork.Compile.Lower
import Blockwork.Text.Color
import Blockwork.Text.Decimal

/-! # Casts

Texts of the program are converted while compiling, plain values in registers, and whatever involves
strings, lists or dynamic values by an entry point. -/

namespace Blockwork.Lower

def castError {α : Type} (arg : Operand) (target : DataType) (loc : Location) : Lower α :=
  fail (.cannotCast arg.dataType target) loc

def toInteger (arg : Operand) (loc : Location) : Lower Reg :=
  match arg with
  | .literal s => constant (.integer (Text.leadingInt (Text.ofString s)))
  | .reg .integer r => return r
  | .reg .color r => unary .integerOfColor r
  | .reg .bool r => unary .integerOfBool r
  | .reg .float r => unary .integerOfFloat r
  | .reg .string r => call .stringToInteger [r]
  | .reg .any r => call .integerFromAny [r]
  | .reg .list _ => constant (.integer 0)
  | .nothing => constant (.integer 0)
  | .blockdef _ => castError arg (.value .integer) loc

def toFloat (arg : Operand) (loc : Location) : Lower Reg :=
  match arg with
  | .literal s => constant (.float (Text.leadingFloat (Text.ofString s)))
  | .reg .integer r => unary .floatOfInteger r
  | .reg .color r => unary .floatOfInteger r
  | .reg .bool r => do unary .floatOfInteger (← unary .integerOfBool r)
  | .reg .float r => return r
  | .reg .string r => call .stringToFloat [r]
  | .reg .any r => call .floatFromAny [r]
  | .reg .list _ => constant (.float (Float.ofBits 0))
  | .nothing => constant (.float (Float.ofBits 0))
  | .blockdef _ => castError arg (.value .float) loc

def toBool (arg : Operand) (loc : Location) : Lower Reg :=
  match arg with
  | .literal s => constant (.bool (s != ""))
  | .reg .string r => do unary .isNonzero (← call .stringLength [r])
  | .reg .integer r => unary .isNonzero r
  | .reg .float r => unary .floatIsTrue r
  | .reg .bool r => return r
  | .reg .any r => call .boolFromAny [r]
  | .reg .list _ => constant (.bool false)
  | .nothing => constant (.bool false)
  | .reg .color _ => castError arg (.value .bool) loc
  | .blockdef _ => castError arg (.value .bool) loc

/-- Color that a text of the program denotes: a written color, else its leading integer. -/
def literalColor (s : String) : Int64 :=
  (Text.parseColor s.toList).getD (Text.leadingInt (Text.ofString s))

def toColor (arg : Operand) (loc : Location) : Lower Reg :=
  match arg with
  | .literal s => constant (.color (literalColor s))
  | .reg .integer r => unary .colorOfInteger r
  | .reg .color r => return r
  | .reg .bool r => unary .colorOfBool r
  | .reg .float r => unary .colorOfFloat r
  | .reg .string r => do call .colorFromAny [← call .anyFromString [r]]
  | .reg .any r => call .colorFromAny [r]
  | .nothing => constant (.color 0)
  | .reg .list _ => castError arg (.value .color) loc
  | .blockdef _ => castError arg (.value .color) loc

def stringLiteral (s : String) : Lower Reg := do
  call .stringFromLiteral [← constant (.text (Text.ofString s))]

def toString (arg : Operand) (loc : Location) : Lower Reg :=
  match arg with
  | .literal s => stringLiteral s
  | .nothing => stringLiteral "nothing"
  | .reg .list _ => stringLiteral ""
  | .reg .string r => return r
  | .reg .integer r => call .stringFromInteger [r]
  | .reg .float r => call .stringFromFloat [r]
  | .reg .bool r => call .stringFromBool [r]
  | .reg .color r => call .stringFromColor [r]
  | .reg .any r => call .stringFromAny [r]
  | .blockdef _ => castError arg (.value .string) loc

def toList (arg : Operand) (loc : Location) : Lower Reg :=
  match arg with
  | .reg .list r => return r
  | .reg .any r => call .listFromAny [r]
  | _ => castError arg (.value .list) loc

def toAny (arg : Operand) (loc : Location) : Lower Reg :=
  match arg with
  | .nothing => call .anyNothing []
  | .literal s => do call .anyFromString [← stringLiteral s]
  | .reg .integer r => call .anyFromInteger [r]
  | .reg .float r => call .anyFromFloat [r]
  | .reg .bool r => call .anyFromBool [r]
  | .reg .color r => call .anyFromColor [r]
  | .reg .string r => call .anyFromString [r]
  | .reg .list r => call .anyFromList [r]
  | .reg .any r => return r
  | .blockdef _ => castError arg (.value .any) loc

def elementOf (src : Reg) : Lower Reg := do
  let dst ← fresh
  emit (.element dst src)
  return dst

def toElement (arg : Operand) (loc : Location) : Lower Reg :=
  match arg with
  | .nothing => constant (.element .nothing)
  | .literal s => do elementOf (← stringLiteral s)
  | .reg _ r => elementOf r
  | .blockdef _ => castError arg (.value .any) loc

def castToValue (arg : Operand) (ty : ValueType) (loc : Location) : Lower Operand := do
  let r ←
    match ty with
    | .integer => toInteger arg loc
    | .float => toFloat arg loc
    | .bool => toBool arg loc
    | .color => toColor arg loc
    | .string => toString arg loc
    | .list => toList arg loc
    | .any => toAny arg loc
  return .reg ty r

def castTo (arg : Operand) (ty : DataType) (loc : Location) : Lower Operand :=
  match ty with
  | .value ty => castToValue arg ty loc
  | ty => castError arg ty loc

end Blockwork.Lower
