import Blockwork.Compile.DataType
import Blockwork.Program.Basic

/-! # Compile errors

A fault of the program is told apart from a broken structural rule; the text of an error is a
function of its cause. -/

namespace Blockwork

inductive ErrorKind where
  | user
  | internal
  deriving DecidableEq, Repr

def maxParameters : Nat := 32

inductive Cause where
  -- structure of chains
  | startsOnly (id : String)
  | notAnArgument (id : String)
  | controlOverflow
  | controlUnderflow
  | variableOverflow
  | variableUnderflow
  | scopeOverflow
  | scopeUnderflow
  | invalidControl
  | unterminated
  | noImplementation (id : String)
  | noRepresentation (ty : DataType)
  -- defined blocks
  | unknownBlockdef (id : String)
  | definedTwice (id : String)
  | tooManyParameters (count : Nat)
  | wrongArity (id : String) (expected got : Nat)
  | parameterOutside
  | parameterUnowned
  -- arguments
  | missingArguments (id : String) (least got : Nat)
  | invalidColor (text : String)
  | expectedType (got expected : DataType)
  | cannotCast (source target : DataType)
  | cannotCompare (ty : DataType)
  | cannotPrint (ty : DataType)
  | divisionByZero
  | unknownMath (name : String)
  -- variables
  | nestedDeclaration
  | emptyName
  | declaresNothing
  | declaresBlockdef
  | unknownVariable (name : String)
  | assignType (name : String) (declared got : DataType)
  deriving DecidableEq, Repr

namespace Cause

def kind : Cause → ErrorKind
  | controlOverflow => .internal
  | controlUnderflow => .internal
  | variableOverflow => .internal
  | variableUnderflow => .internal
  | scopeOverflow => .internal
  | scopeUnderflow => .internal
  | invalidControl => .internal
  | unterminated => .internal
  | noImplementation _ => .internal
  | noRepresentation _ => .internal
  | _ => .user

def quoted (s : String) : String :=
  "\"" ++ s ++ "\""

def message : Cause → String
  | startsOnly id => "Block " ++ quoted id ++ " can only start a chain"
  | notAnArgument id => "Block " ++ quoted id ++ " cannot be used as an argument"
  | controlOverflow => "Control stack overflow"
  | controlUnderflow => "Control stack underflow"
  | variableOverflow => "Variable stack overflow"
  | variableUnderflow => "Variable stack underflow"
  | scopeOverflow => "Gc stack overflow"
  | scopeUnderflow => "Gc stack underflow"
  | invalidControl => "Invalid control state"
  | unterminated => "Unterminated control block"
  | noImplementation id => "Tried to compile block " ++ quoted id ++ " without implementation"
  | noRepresentation ty => "Type " ++ ty.name ++ " has no machine representation"
  | unknownBlockdef id => "Unknown blockdef " ++ quoted id
  | definedTwice id => "Block " ++ quoted id ++ " is defined more than once"
  | tooManyParameters n =>
    "Too many parameters passed into function. Got " ++ toString n ++ "/" ++ toString maxParameters
  | wrongArity id expected got =>
    "Block " ++ quoted id ++ " takes " ++ toString expected ++ " arguments, got " ++ toString got
  | parameterOutside => "Function argument block used outside of function"
  | parameterUnowned => "Could not find function definition for argument"
  | missingArguments id least got =>
    "Not enough arguments passed to block " ++ quoted id ++ ". Expected at least " ++
      toString least ++ ", got " ++ toString got
  | invalidColor text => "Invalid color " ++ quoted text
  | expectedType got expected => "Invalid data type " ++ got.name ++ ", expected " ++ expected.name
  | cannotCast source target => "Cannot cast type " ++ source.name ++ " into " ++ target.name
  | cannotCompare ty => "Cannot compare type " ++ ty.name
  | cannotPrint ty => "Invalid type " ++ ty.name ++ " in print function"
  | divisionByZero => "Division by zero"
  | unknownMath name => "Invalid math function " ++ quoted name
  | nestedDeclaration => "Variable declarations are not allowed inside an argument"
  | emptyName => "Cannot declare variable with empty name"
  | declaresNothing => "Cannot declare a variable with zero sized type (i.e. Nothing)"
  | declaresBlockdef => "Cannot declare a variable of type blockdef"
  | unknownVariable name =>
    "Variable with name " ++ quoted name ++ " does not exist in the current scope"
  | assignType name declared got =>
    "Assign to variable " ++ quoted name ++ " of type " ++ declared.name ++
      " with incompatible type " ++ got.name

end Cause

structure CompileError where
  cause : Cause
  loc : Option Location
  deriving DecidableEq, Repr

namespace CompileError

def message (e : CompileError) : String := e.cause.message

def describe (e : CompileError) : String :=
  match e.loc with
  | some l => l.describe ++ ": " ++ e.message
  | none => e.message

end CompileError

end Blockwork
