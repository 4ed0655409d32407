import Blockwork.Session.Basic
import Blockwork.Text.Decimal
import Blockwork.Text.Color

/-! # Dynamic values

Every conversion is total: what has no sensible reading is zero, false, empty or nothing. -/

namespace Blockwork.Session

def integerOf (s : Session) : Boxed → Int64
  | .integer v => v
  | .color v => v
  | .bool v => if v then 1 else 0
  | .float v => Binary64.toInt v
  | .string p => Text.leadingInt (s.bytes p)
  | .list _ => 0
  | .nothing => 0

def floatOf (s : Session) : Boxed → Float
  | .integer v => Binary64.ofInt v
  | .color v => Binary64.ofInt v
  | .bool v => Binary64.ofInt (if v then 1 else 0)
  | .float v => v
  | .string p => Text.leadingFloat (s.bytes p)
  | .list _ => Binary64.ofMagnitude false 0
  | .nothing => Binary64.ofMagnitude false 0

def floatIsTrue (v : Float) : Bool :=
  !(v == Binary64.ofMagnitude false 0)

def boolOf (s : Session) : Boxed → Bool
  | .integer v => v != 0
  | .color v => v != 0
  | .bool v => v
  | .float v => floatIsTrue v
  | .string p => !(s.bytes p).isEmpty
  | .list _ => false
  | .nothing => false

def colorOf (s : Session) : Boxed → Int64
  | .string p => (Text.parseColor (Text.lossy (s.bytes p))).getD 0
  | v => s.integerOf v

def textOf (s : Session) : Boxed → Bytes
  | .integer v => Text.formatInt v
  | .float v => Text.formatFloat v
  | .bool v => Text.formatBool v
  | .color v => Text.formatColor v
  | .string p => s.bytes p
  | .list p => Text.formatList (s.listLength p)
  | .nothing => []

def stringOf (s : Session) : Boxed → Pointer × Session
  | .string p => (p, s)
  | v => s.allocString (s.textOf v)

def listOf (s : Session) : Boxed → Pointer × Session
  | .list p => (p, s)
  | _ => s.allocList

/-- Equality: by content for scalars and strings, by identity for lists. -/
def boxedEq (s : Session) : Boxed → Boxed → Bool
  | .nothing, .nothing => true
  | .integer a, .integer b => a == b
  | .bool a, .bool b => a == b
  | .color a, .color b => a == b
  | .float a, .float b => a == b
  | .string p, .string q => s.bytes p == s.bytes q
  | .list p, .list q => p == q
  | _, _ => false

def kindName (s : Session) (v : Boxed) : Pointer × Session :=
  s.allocString (Text.ofString v.kind.name)

end Blockwork.Session
