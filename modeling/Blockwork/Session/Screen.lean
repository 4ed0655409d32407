import Blockwork.Session.Boxes

/-! # Output and input of a session

Printing gives the number of bytes written. An escape sequence is written without moving the tracked
cursor; the operations that do move it set it themselves. -/

namespace Blockwork.Session

/-! ### Writing -/

def send (s : Session) (b : Bytes) : Bool × Session :=
  if s.terminal.sink.accepts then
    let sink := s.terminal.sink.take b
    (true, { s with terminal := { s.terminal with sink }, stop := s.stop || sink.asksStop })
  else (false, s)

def print (s : Session) (b : Bytes) : Int64 × Session :=
  if b.isEmpty then (0, s)
  else
    match s.send b with
    | (true, s) =>
      (Int64.ofNat b.length,
        { s with terminal := { s.terminal with cursor := s.terminal.cursor.passAll b } })
    | (false, s) => (0, s)

def control (s : Session) (b : Bytes) : Session :=
  (s.send b).2

def printBoxed (s : Session) (v : Boxed) : Int64 × Session :=
  s.print (s.textOf v)

/-! ### Colors and cursor -/

def setForeground (s : Session) (color : Int64) : Session :=
  s.control (Escape.foreground color)

def setBackground (s : Session) (color : Int64) : Session :=
  let s := s.control (Escape.background color)
  { s with terminal := { s.terminal with background := some color } }

def resetColors (s : Session) : Session :=
  let s := s.control Escape.reset
  { s with terminal := { s.terminal with background := none } }

def setClearColor (s : Session) (color : Int64) : Session :=
  { s with terminal := { s.terminal with clearColor := some color } }

def placeCursor (s : Session) (c : Cursor) : Session :=
  { s with terminal := { s.terminal with cursor := c } }

/-- Clear the screen and home the cursor. With a clear color the screen is filled with it, and the
program's own background comes back afterwards. -/
def clearScreen (s : Session) : Session :=
  let s :=
    match s.terminal.clearColor with
    | none => s.control Escape.clear
    | some color =>
      let s := (s.control (Escape.background color)).control Escape.clear
      match s.terminal.background with
      | some own => s.control (Escape.background own)
      | none => s.control Escape.defaultBackground
  s.placeCursor {}

def moveCursor (s : Session) (x y : Int64) : Session :=
  let c : Cursor := ⟨if x.toInt < 0 then 0 else x, if y.toInt < 0 then 0 else y⟩
  (s.control (Escape.moveTo c)).placeCursor c

/-! ### Reading -/

def inputLine (s : Session) : Pointer × Session :=
  let (line, rest) := Input.readLine s.input
  { s with input := rest }.allocString line

def inputLetter (s : Session) : Pointer × Session :=
  let (letter, rest) := Input.readLetter s.input
  { s with input := rest }.allocString letter

/-! ### Time and chance -/

/-- Wait some microseconds. The answer is the time asked for, or zero when the wait was cut short by
a stop or the time is negative. -/
def sleep (s : Session) (micros : Int64) : Int64 :=
  if micros.toInt < 0 || s.shouldExit then 0 else micros

def nextEntropy (e : UInt64) : UInt64 := e + 0x9E3779B97F4A7C15

def scramble (e : UInt64) : UInt64 :=
  let a := (e ^^^ (e >>> 30)) * 0xBF58476D1CE4E5B9
  let b := (a ^^^ (a >>> 27)) * 0x94D049BB133111EB
  b ^^^ (b >>> 31)

def random (s : Session) (a b : Int64) : Int64 × Session :=
  let low := min a.toInt b.toInt
  let span := (max a.toInt b.toInt - low).toNat + 1
  let entropy := nextEntropy s.entropy
  (Int64.ofInt (low + Int.ofNat ((scramble entropy).toNat % span)), { s with entropy })

end Blockwork.Session
