import Blockwork.Value.Basic

/-! # Static types and operands

What the compiler knows about the result of a block. -/

namespace Blockwork

abbrev Reg := Nat

def ValueType.name : ValueType → String
  | .integer => "integer"
  | .float => "float"
  | .bool => "bool"
  | .color => "color"
  | .string => "string"
  | .list => "list"
  | .any => "any"

inductive DataType where
  | nothing
  | literal
  | blockdef
  | value (ty : ValueType)
  deriving DecidableEq, Repr

namespace DataType

def name : DataType → String
  | nothing => "nothing"
  | literal => "literal"
  | blockdef => "blockdef"
  | value ty => ty.name

def all : List DataType :=
  [nothing, literal, blockdef, value .integer, value .float, value .bool, value .color,
   value .string, value .list, value .any]

def ofName? (s : String) : Option DataType :=
  all.find? (·.name == s)

def isHeap : DataType → Bool
  | value ty => ty.isHeap
  | _ => false

end DataType

/-- A compiled argument, or the result of a block. -/
inductive Operand where
  | nothing
  /-- Text of the program, turned into a value only when it is cast. -/
  | literal (text : String)
  | blockdef (id : String)
  | reg (ty : ValueType) (r : Reg)
  deriving DecidableEq, Repr, Inhabited

def Operand.dataType : Operand → DataType
  | nothing => .nothing
  | literal _ => .literal
  | blockdef _ => .blockdef
  | reg ty _ => .value ty

end Blockwork
