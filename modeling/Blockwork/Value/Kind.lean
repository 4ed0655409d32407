/-! # Kinds of dynamic values
A kind code with 64 bits of data. Unknown codes mean nothing. Floats are stored as their bit pattern,
truth values as zero or one, and strings and lists as pointers. -/

namespace Blockwork

inductive Kind where
  | nothing
  | integer
  | float
  | bool
  | string
  | list
  | color
  deriving DecidableEq, Repr

namespace Kind

def code : Kind → UInt64
  | nothing => 0
  | integer => 1
  | float => 2
  | bool => 3
  | string => 4
  | list => 5
  | color => 6

def ofCode (c : UInt64) : Kind :=
  if c = 1 then integer
  else if c = 2 then float
  else if c = 3 then bool
  else if c = 4 then string
  else if c = 5 then list
  else if c = 6 then color
  else nothing

@[simp] theorem ofCode_code (k : Kind) : ofCode k.code = k := by
  cases k <;> rfl

def name : Kind → String
  | nothing => "nothing"
  | integer => "integer"
  | float => "float"
  | bool => "bool"
  | string => "string"
  | list => "list"
  | color => "color"

def isHeap : Kind → Bool
  | string => true
  | list => true
  | _ => false

end Kind

structure RawValue where
  kind : UInt64
  data : UInt64
  deriving DecidableEq, Repr

namespace RawValue

/-- Normalise a pair of words: an unknown kind becomes plain nothing, and of a truth value only the
lowest bit counts. -/
def ofParts (kind bits : UInt64) : RawValue :=
  match Kind.ofCode kind with
  | .nothing => ⟨0, 0⟩
  | .bool => ⟨kind, bits &&& 1⟩
  | _ => ⟨kind, bits⟩

def asInteger (v : RawValue) : Int64 := v.data.toInt64

def asBool (v : RawValue) : Bool := v.data != 0

def asFloat (v : RawValue) : Float := Float.ofBits v.data

def pointsToHeap (v : RawValue) : Bool := (Kind.ofCode v.kind).isHeap && v.data != 0

end RawValue

end Blockwork
