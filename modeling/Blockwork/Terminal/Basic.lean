import Blockwork.Text.Letters
import Blockwork.Text.Integer

/-! # The terminal

The cursor is tracked here and never asked from the terminal. -/

namespace Blockwork

structure Cursor where
  x : Int64 := 0
  y : Int64 := 0
  deriving DecidableEq, Repr, Inhabited

structure TermSize where
  columns : Int64 := 80
  rows : Int64 := 24
  deriving DecidableEq, Repr, Inhabited

/-- Where output goes. A sink may stop accepting writes after some number of them, and may ask the
program to stop once some number of writes were made. -/
structure Sink where
  written : Array UInt8 := #[]
  writes : Nat := 0
  failAfter : Option Nat := none
  stopAfter : Option Nat := none
  deriving DecidableEq, Inhabited

namespace Sink

def accepts (k : Sink) : Bool :=
  match k.failAfter with
  | some n => k.writes < n
  | none => true

def take (k : Sink) (b : Bytes) : Sink :=
  { k with written := k.written ++ b.toArray, writes := k.writes + 1 }

def asksStop (k : Sink) : Bool :=
  match k.stopAfter with
  | some n => n ≤ k.writes
  | none => false

end Sink

namespace Cursor

/-- Move over one written byte: a newline goes to the start of the next row, any other byte that
starts a letter goes one column on. -/
def pass (c : Cursor) (b : UInt8) : Cursor :=
  if b = 0x0A then ⟨0, c.y + 1⟩
  else if Text.startsLetter b then { c with x := c.x + 1 }
  else c

def passAll (c : Cursor) (b : Bytes) : Cursor :=
  b.foldl pass c

end Cursor

/-! ### Escape sequences -/

namespace Escape

def rgb (color : Int64) : Nat × Nat × Nat :=
  let v := (color.toInt % 0x100000000).toNat
  (v / 0x1000000 % 256, v / 0x10000 % 256, v / 0x100 % 256)

def lead : String := "\x1b["

def colorText (selector : String) (color : Int64) : Bytes :=
  let (r, g, b) := rgb color
  Text.ofString (lead ++ selector ++ ";2;" ++ toString r ++ ";" ++ toString g ++ ";" ++ toString b ++ "m")

def foreground (color : Int64) : Bytes := colorText "38" color

def background (color : Int64) : Bytes := colorText "48" color

def defaultBackground : Bytes := Text.ofString (lead ++ "49m")

def reset : Bytes := Text.ofString (lead ++ "0m")

def clear : Bytes := Text.ofString (lead ++ "2J" ++ lead ++ "H")

/-- Move the cursor; the terminal counts from one, row first. -/
def moveTo (c : Cursor) : Bytes :=
  Text.ofString (lead ++ toString (c.y + 1).toInt ++ ";" ++ toString (c.x + 1).toInt ++ "H")

end Escape

structure Terminal where
  cursor : Cursor := {}
  size : TermSize := {}
  background : Option Int64 := none
  clearColor : Option Int64 := none
  sink : Sink := {}
  deriving DecidableEq, Inhabited

end Blockwork
