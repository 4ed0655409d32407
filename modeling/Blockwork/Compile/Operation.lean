import Blockwork.Compile.Arithmetic
import Blockwork.Compile.Variable
import Blockwork.Text.Letters

/-! # Plain blocks

How each plain block is lowered, once its arguments are. -/

namespace Blockwork.Lower

/-! ### Printing -/

def printLiteral (s : String) : Lower Reg := do
  if s == "" then constant (.integer 0)
  else call .printLiteral [← constant (.text (Text.ofString s))]

def printOperand (arg : Operand) (loc : Location) : Lower Reg :=
  match arg with
  | .literal s => printLiteral s
  | .nothing => constant (.integer 0)
  | .reg .string r => call .printString [r]
  | .reg .integer r => call .printInteger [r]
  | .reg .float r => call .printFloat [r]
  | .reg .bool r => call .printBool [r]
  | .reg .color r => call .printColor [r]
  | .reg .list r => call .printList [r]
  | .reg .any r => call .printAny [r]
  | .blockdef _ => fail (.cannotPrint .blockdef) loc

def printLine (arg : Operand) (loc : Location) : Lower Reg := do
  let written ← printOperand arg loc
  let newline ← printLiteral "\n"
  binary .add written newline

/-! ### Text -/

def join (left right : Operand) (loc : Location) : Lower Operand :=
  match left, right with
  | .literal a, .literal b => return .literal (a ++ b)
  | left, right => do
    let l ← toString left loc
    let r ← toString right loc
    return .reg .string (← call .stringJoin [l, r])

def length (arg : Operand) (loc : Location) : Lower Operand :=
  match arg with
  | .literal s => return .reg .integer (← constant (.integer (Int64.ofNat s.toList.length)))
  | arg => do return .reg .integer (← call .stringLength [← toString arg loc])

def literalOrd (s : String) : Int64 :=
  match s.toList with
  | c :: _ => Int64.ofNat c.toNat
  | [] => 0

def ord (arg : Operand) (loc : Location) : Lower Operand :=
  match arg with
  | .literal s => return .reg .integer (← constant (.integer (literalOrd s)))
  | arg => do return .reg .integer (← call .stringOrd [← toString arg loc])

/-! ### Leaving -/

/-- Leave the function. The root frames of the function are closed first, and the result is kept
alive as a temporary of the caller. -/
def leave (value : Operand) (loc : Location) : Lower Unit := do
  perform .rootRestore []
  match (← read).kind with
  | .main => emit (.ret none)
  | .user _ =>
    match value with
    | .reg ty r => if ty.isHeap then perform .addTempRoot [r]
    | _ => pure ()
    emit (.ret (some (← toAny value loc)))
  onScopes (·.setDirty false)

def typeName (arg : Operand) : Lower Operand :=
  match arg with
  | .reg .any r => return .reg .string (← call .anyTypeName [r])
  | arg => return .literal arg.dataType.name

/-! ### All plain blocks -/

def integerCall (e : Entry) (ty : ValueType) (args : List Operand) (loc : Location) :
    Lower Operand := do
  return .reg ty (← call e (← args.mapM (toInteger · loc)))

def statement (e : Entry) (args : List Reg) : Lower Operand := do
  perform e args
  return .nothing

def logical (op : BinaryOp) (left right : Operand) (loc : Location) : Lower Operand := do
  let l ← toBool left loc
  let r ← toBool right loc
  return .reg .bool (← binary op l r)

def bitwise (op : BinaryOp) (left right : Operand) (loc : Location) : Lower Operand := do
  let l ← toInteger left loc
  let r ← toInteger right loc
  return .reg .integer (← binary op l r)

def operation (op : Operation) (argv : List Operand) (loc : Location) : Lower Operand :=
  let arg (i : Nat) : Operand := argv.getD i .nothing
  match op with
  | .leave => do
    leave (arg 0) loc
    return .nothing
  -- output and input
  | .print => return .reg .integer (← printOperand (arg 0) loc)
  | .println => return .reg .integer (← printLine (arg 0) loc)
  | .input => return .reg .string (← call .termInput [])
  | .getChar => return .reg .string (← call .termGetChar [])
  | .setForeground => do statement .termSetFgColor [← toColor (arg 0) loc]
  | .setBackground => do statement .termSetBgColor [← toColor (arg 0) loc]
  | .resetColors => statement .termResetColor []
  | .clear => statement .termClear []
  | .setClearColor => do statement .termSetClearColor [← toColor (arg 0) loc]
  | .setCursor => do
    let x ← toInteger (arg 0) loc
    let y ← toInteger (arg 1) loc
    statement .termSetCursor [x, y]
  | .cursorX => return .reg .integer (← call .termCursorX [])
  | .cursorY => return .reg .integer (← call .termCursorY [])
  | .cursorMaxX => return .reg .integer (← call .termCursorMaxX [])
  | .cursorMaxY => return .reg .integer (← call .termCursorMaxY [])
  -- numbers
  | .plus => arithmetic .floatAdd .add (arg 0) (arg 1) loc
  | .minus => arithmetic .floatSub .sub (arg 0) (arg 1) loc
  | .mult => arithmetic .floatMul .mul (arg 0) (arg 1) loc
  | .div => quotient (arg 0) (arg 1) loc
  | .rem => remainder (arg 0) (arg 1) loc
  | .pow => power (arg 0) (arg 1) loc
  | .math => mathFunction (arg 0) (arg 1) loc
  | .pi => return .reg .float (← constant (.float (Float.ofBits piBits)))
  | .less => ordering .less (arg 0) (arg 1) loc
  | .lessEq => ordering .lessEq (arg 0) (arg 1) loc
  | .more => ordering .more (arg 0) (arg 1) loc
  | .moreEq => ordering .moreEq (arg 0) (arg 1) loc
  -- logic
  | .eq => return .reg .bool (← equals (arg 0) (arg 1) loc)
  | .notEq => do return .reg .bool (← unary .not (← equals (arg 0) (arg 1) loc))
  | .not => do return .reg .bool (← unary .not (← toBool (arg 0) loc))
  | .and => logical .and (arg 0) (arg 1) loc
  | .or => logical .or (arg 0) (arg 1) loc
  | .true => return .reg .bool (← constant (.bool true))
  | .false => return .reg .bool (← constant (.bool false))
  | .bitNot => do return .reg .integer (← unary .bitNot (← toInteger (arg 0) loc))
  | .bitAnd => bitwise .bitAnd (arg 0) (arg 1) loc
  | .bitOr => bitwise .bitOr (arg 0) (arg 1) loc
  | .bitXor => bitwise .bitXor (arg 0) (arg 1) loc
  -- time and chance
  | .sleep => integerCall .sleep .integer [arg 0] loc
  | .random => integerCall .random .integer [arg 0, arg 1] loc
  | .unixTime => return .reg .integer (← call .unixTime [])
  -- conversions
  | .toInteger => castToValue (arg 0) .integer loc
  | .toFloat => castToValue (arg 0) .float loc
  | .toString => castToValue (arg 0) .string loc
  | .toBool => castToValue (arg 0) .bool loc
  | .toColor => castToValue (arg 0) .color loc
  | .typeOf => typeName (arg 0)
  | .nothing => return .nothing
  | .comment => return .nothing
  | .collect => statement .collect []
  -- variables
  | .declare => declarationBlock (arg 0) (arg 1) loc
  | .getVariable => do loadVariable (← variableName (arg 0) loc) loc
  | .setVariable => do
    storeVariable (← variableName (arg 0) loc) (arg 1) loc
    return arg 1
  -- lists
  | .createList => return .reg .list (← call .listNew [])
  | .listAdd => do
    let list ← toList (arg 0) loc
    let element ← toElement (arg 1) loc
    statement .listAdd [list, element]
  | .listGet => do
    let list ← toList (arg 0) loc
    let index ← toInteger (arg 1) loc
    return .reg .any (← call .listGet [list, index])
  | .listSet => do
    let list ← toList (arg 0) loc
    let index ← toInteger (arg 1) loc
    let element ← toElement (arg 2) loc
    statement .listSet [list, index, element]
  | .listLength => do return .reg .integer (← call .listLength [← toList (arg 0) loc])
  -- text
  | .join => join (arg 0) (arg 1) loc
  | .letterIn => do
    let index ← toInteger (arg 0) loc
    let text ← toString (arg 1) loc
    return .reg .string (← call .stringLetterIn [index, text])
  | .substring => do
    let first ← toInteger (arg 0) loc
    let last ← toInteger (arg 1) loc
    let text ← toString (arg 2) loc
    return .reg .string (← call .stringSubstring [first, last, text])
  | .length => length (arg 0) loc
  | .ord => ord (arg 0) loc
  | .chr => integerCall .stringChr .string [arg 0] loc

end Blockwork.Lower
