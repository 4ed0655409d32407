import Blockwork.Value.Kind
import Blockwork.Text.Utf8

/-! # Values of a running program
`Pointer` names a chunk of the heap, one of three static values, or nothing at all. `Boxed` is what an
`any` or a list element holds. `Value` carries its own type, so that reading a value at the wrong type
is visible. -/

namespace Blockwork

/-- A value that exists once, is never collected and never changes. -/
inductive Static where
  | nothing
  | emptyString
  | emptyList
  deriving DecidableEq, Repr

/-- A pointer. Chunk addresses are never used twice. -/
inductive Pointer where
  | null
  | static (s : Static)
  | chunk (addr : Nat)
  deriving DecidableEq, Repr, Inhabited

inductive Boxed where
  | nothing
  | integer (v : Int64)
  | float (v : Float)
  | bool (v : Bool)
  | color (v : Int64)
  | string (p : Pointer)
  | list (p : Pointer)
  deriving DecidableEq, Inhabited

namespace Boxed

def kind : Boxed → Kind
  | nothing => .nothing
  | integer _ => .integer
  | float _ => .float
  | bool _ => .bool
  | color _ => .color
  | string _ => .string
  | list _ => .list

def pointers : Boxed → List Pointer
  | string p => if p = .null then [] else [p]
  | list p => if p = .null then [] else [p]
  | _ => []

/-- A boxed value from two words. Of the kinds that are pointers only null can be written this way. -/
def ofRaw (v : RawValue) : Boxed :=
  match Kind.ofCode v.kind with
  | .nothing => nothing
  | .integer => integer v.asInteger
  | .float => float v.asFloat
  | .bool => bool v.asBool
  | .color => color v.asInteger
  | .string => string .null
  | .list => list .null

end Boxed

inductive ValueType where
  | integer
  | float
  | bool
  | color
  | string
  | list
  | any
  deriving DecidableEq, Repr

def ValueType.isHeap : ValueType → Bool
  | string => true
  | list => true
  | any => true
  | _ => false

inductive Value where
  /-- The zero word: an untouched variable, a null pointer, or no result. -/
  | zero
  | integer (v : Int64)
  | float (v : Float)
  | bool (v : Bool)
  | color (v : Int64)
  | string (p : Pointer)
  | list (p : Pointer)
  | any (p : Pointer)
  /-- A list element on its way into a list, as kind and data. -/
  | element (b : Boxed)
  | text (b : Bytes)
  | place (index : Nat)
  deriving DecidableEq, Inhabited

namespace Value

def hasType : Value → ValueType → Bool
  | zero, _ => true
  | integer _, .integer => true
  | float _, .float => true
  | bool _, .bool => true
  | color _, .color => true
  | string _, .string => true
  | list _, .list => true
  | any _, .any => true
  | _, _ => false

def zeroOf : ValueType → Value
  | .integer => integer 0
  | .float => float (Float.ofBits 0)
  | .bool => bool false
  | .color => color 0
  | .string => string .null
  | .list => list .null
  | .any => any .null

def readAs (v : Value) (ty : ValueType) : Value :=
  match v with
  | zero => zeroOf ty
  | v => v

def pointer : Value → Pointer
  | string p => p
  | list p => p
  | any p => p
  | _ => .null

def toInteger : Value → Int64
  | integer v => v
  | color v => v
  | _ => 0

def toBool : Value → Bool
  | bool v => v
  | _ => false

def toFloat : Value → Float
  | float v => v
  | _ => Float.ofBits 0

def toText : Value → Bytes
  | text b => b
  | _ => []

def toElement : Value → Boxed
  | element b => b
  | _ => .nothing

end Value

end Blockwork
