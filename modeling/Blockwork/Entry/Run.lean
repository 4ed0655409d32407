import Blockwork.Entry.Basic
import Blockwork.Session.Lists
import Blockwork.Session.Screen

/-! # What entry points do
Arguments are the values the caller passes, without the session itself; a missing argument reads as
the zero word, and an entry point without result gives the zero word. -/

namespace Blockwork

namespace Session

/-! ### Results -/

def keep (s : Session) (v : Value) : Value × Session := (v, s)

def only (s : Session) : Value × Session := (.zero, s)

def stringResult (r : Pointer × Session) : Value × Session := (.string r.1, r.2)

def listResult (r : Pointer × Session) : Value × Session := (.list r.1, r.2)

def anyResult (r : Pointer × Session) : Value × Session := (.any r.1, r.2)

def integerResult (r : Int64 × Session) : Value × Session := (.integer r.1, r.2)

end Session

open Session

def argument (args : List Value) (i : Nat) : Value :=
  args.getD i .zero

def Entry.run (e : Entry) (args : List Value) (s : Session) : Value × Session :=
  let int (i : Nat) : Int64 := (argument args i).toInteger
  let flt (i : Nat) : Float := (argument args i).toFloat
  let ptr (i : Nat) : Pointer := (argument args i).pointer
  let bool (i : Nat) : Bool := (argument args i).toBool
  match e with
  -- roots and stopping
  | .rootBegin => s.rootBegin.only
  | .rootEnd => s.rootEnd.only
  | .rootSave => s.rootSave.only
  | .rootRestore => s.rootRestore.only
  | .flush => s.flush.only
  | .addRoot =>
    match argument args 0 with
    | .place i => (s.addRoot i).only
    | _ => s.only
  | .addTempRoot => (s.addTempRoot (ptr 0)).only
  | .collect => s.collect.only
  | .pollStop => s.keep (.bool s.shouldExit)
  -- dynamic values
  | .anyNothing => s.keep (.any (.static .nothing))
  | .anyFromInteger => anyResult (s.allocAny (.integer (int 0)))
  | .anyFromFloat => anyResult (s.allocAny (.float (flt 0)))
  | .anyFromBool => anyResult (s.allocAny (.bool (bool 0)))
  | .anyFromColor => anyResult (s.allocAny (.color (int 0)))
  | .anyFromString => anyResult (s.allocAny (.string (ptr 0)))
  | .anyFromList => anyResult (s.allocAny (.list (ptr 0)))
  | .integerFromAny => s.keep (.integer (s.integerOf (s.boxed (ptr 0))))
  | .floatFromAny => s.keep (.float (s.floatOf (s.boxed (ptr 0))))
  | .boolFromAny => s.keep (.bool (s.boolOf (s.boxed (ptr 0))))
  | .colorFromAny => s.keep (.color (s.colorOf (s.boxed (ptr 0))))
  | .stringFromAny => stringResult (s.stringOf (s.boxed (ptr 0)))
  | .listFromAny => listResult (s.listOf (s.boxed (ptr 0)))
  | .anyIsEq => s.keep (.bool (s.boxedEq (s.boxed (ptr 0)) (s.boxed (ptr 1))))
  | .anyTypeName => stringResult (s.kindName (s.boxed (ptr 0)))
  -- strings
  | .stringFromLiteral => stringResult (s.allocString (argument args 0).toText)
  | .stringFromInteger => stringResult (s.allocString (Text.formatInt (int 0)))
  | .stringFromFloat => stringResult (s.allocString (Text.formatFloat (flt 0)))
  | .stringFromBool => stringResult (s.allocString (Text.formatBool (bool 0)))
  | .stringFromColor => stringResult (s.allocString (Text.formatColor (int 0)))
  | .stringToInteger => s.keep (.integer (Text.leadingInt (s.bytes (ptr 0))))
  | .stringToFloat => s.keep (.float (Text.leadingFloat (s.bytes (ptr 0))))
  | .stringJoin => stringResult (s.allocString (s.bytes (ptr 0) ++ s.bytes (ptr 1)))
  | .stringLength => s.keep (.integer (Text.length (s.bytes (ptr 0))))
  | .stringLetterIn => stringResult (s.allocString (Text.letterAt (s.bytes (ptr 1)) (int 0)))
  | .stringSubstring =>
    stringResult (s.allocString (Text.substring (s.bytes (ptr 2)) (int 0) (int 1)))
  | .stringOrd => s.keep (.integer (Text.ord (s.bytes (ptr 0))))
  | .stringChr => stringResult (s.allocString (Text.chr (int 0)))
  | .stringIsEq => s.keep (.bool (s.bytes (ptr 0) == s.bytes (ptr 1)))
  -- lists
  | .listNew => listResult s.allocList
  | .listAdd => (s.listAdd (ptr 0) (argument args 1).toElement).only
  | .listGet => anyResult (s.listGet (ptr 0) (int 1))
  | .listSet => (s.listSet (ptr 0) (int 1) (argument args 2).toElement).only
  | .listLength => s.keep (.integer (Int64.ofNat (s.listLength (ptr 0))))
  -- terminal
  | .printLiteral => integerResult (s.print (argument args 0).toText)
  | .printString => integerResult (s.print (s.bytes (ptr 0)))
  | .printInteger => integerResult (s.print (Text.formatInt (int 0)))
  | .printFloat => integerResult (s.print (Text.formatFloat (flt 0)))
  | .printBool => integerResult (s.print (Text.formatBool (bool 0)))
  | .printColor => integerResult (s.print (Text.formatColor (int 0)))
  | .printList => integerResult (s.print (Text.formatList (s.listLength (ptr 0))))
  | .printAny => integerResult (s.printBoxed (s.boxed (ptr 0)))
  | .termInput => stringResult s.inputLine
  | .termGetChar => stringResult s.inputLetter
  | .termSetFgColor => (s.setForeground (int 0)).only
  | .termSetBgColor => (s.setBackground (int 0)).only
  | .termResetColor => s.resetColors.only
  | .termSetClearColor => (s.setClearColor (int 0)).only
  | .termClear => s.clearScreen.only
  | .termSetCursor => (s.moveCursor (int 0) (int 1)).only
  | .termCursorX => s.keep (.integer s.terminal.cursor.x)
  | .termCursorY => s.keep (.integer s.terminal.cursor.y)
  | .termCursorMaxX => s.keep (.integer s.terminal.size.columns)
  | .termCursorMaxY => s.keep (.integer s.terminal.size.rows)
  -- time, chance and numbers
  | .sleep => s.keep (.integer (s.sleep (int 0)))
  | .random => integerResult (s.random (int 0) (int 1))
  | .unixTime => s.keep (.integer s.clock)
  | .intPow => s.keep (.integer (Number.intPow (int 0) (int 1)))
  | .floatPow => s.keep (.float (Float.pow (flt 0) (flt 1)))
  | .floatRem => s.keep (.float (Binary64.rem (flt 0) (flt 1)))
  | .math => s.keep (.float (MathFunction.applyIndex (int 0) (flt 1)))

end Blockwork
