import Blockwork.Proofs.Flow
import Blockwork.Entry.Run

/-! # What entry points ask of memory
An entry point that leaves the root frames to the program makes at most one request of memory. -/

namespace Blockwork

open Session Entry Text

inductive Request where
  | none
  | collect
  /-- A chunk, or a static value in its place. -/
  | alloc (size : Nat) (payload : Payload) (fallback : Static)
  | add (list : Pointer) (v : Boxed)
  | set (list : Pointer) (index : Int64) (v : Boxed)

def Request.carry (q : Request) (s : Session) : Pointer × Session :=
  match q with
  | none => (.null, s)
  | collect => (.null, s.collect)
  | alloc size payload fallback => s.allocOr size payload fallback
  | add list v => (.null, s.listAdd list v)
  | set list index v => (.null, s.listSet list index v)

def Request.grows : Request → Bool
  | alloc _ _ _ => true
  | add _ _ => true
  | _ => false

/-- What a call does outside of memory, what it asks of memory, and what it gives back. -/
structure Plan where
  terminal : Terminal
  input : Bytes
  stop : Bool
  entropy : UInt64
  request : Request
  result : Pointer → Value

namespace Plan

def front (pl : Plan) (s : Session) : Session :=
  { s with terminal := pl.terminal, input := pl.input, stop := pl.stop, entropy := pl.entropy }

def carry (pl : Plan) (s : Session) : Value × Session :=
  let (p, s) := pl.request.carry (pl.front s)
  (pl.result p, s)

end Plan

namespace Session

def asks (s : Session) (q : Request) (result : Pointer → Value) : Plan where
  terminal := s.terminal
  input := s.input
  stop := s.stop
  entropy := s.entropy
  request := q
  result := result

def gives (s : Session) (v : Value) : Plan :=
  s.asks .none fun _ => v

def makes (s : Session) (b : Bytes) : Plan :=
  s.asks (.alloc (stringSize b.length) (.string b) .emptyString) .string

def makesList (s : Session) : Plan :=
  s.asks (.alloc listSize (.list ⟨0, 0, .null⟩) .emptyList) .list

def boxes (s : Session) (v : Boxed) : Plan :=
  if v = .nothing then s.gives (.any (.static .nothing))
  else s.asks (.alloc anySize (.any v) .nothing) .any

def counts (r : Int64 × Session) : Plan :=
  r.2.gives (.integer r.1)

end Session

def Entry.plan (e : Entry) (args : List Value) (s : Session) : Plan :=
  let int (i : Nat) : Int64 := (argument args i).toInteger
  let flt (i : Nat) : Float := (argument args i).toFloat
  let ptr (i : Nat) : Pointer := (argument args i).pointer
  let bool (i : Nat) : Bool := (argument args i).toBool
  match e with
  | .collect => s.asks .collect fun _ => .zero
  | .pollStop => s.gives (.bool s.shouldExit)
  -- dynamic values
  | .anyNothing => s.gives (.any (.static .nothing))
  | .anyFromInteger => s.boxes (.integer (int 0))
  | .anyFromFloat => s.boxes (.float (flt 0))
  | .anyFromBool => s.boxes (.bool (bool 0))
  | .anyFromColor => s.boxes (.color (int 0))
  | .anyFromString => s.boxes (.string (ptr 0))
  | .anyFromList => s.boxes (.list (ptr 0))
  | .integerFromAny => s.gives (.integer (s.integerOf (s.boxed (ptr 0))))
  | .floatFromAny => s.gives (.float (s.floatOf (s.boxed (ptr 0))))
  | .boolFromAny => s.gives (.bool (s.boolOf (s.boxed (ptr 0))))
  | .colorFromAny => s.gives (.color (s.colorOf (s.boxed (ptr 0))))
  | .stringFromAny =>
    match s.boxed (ptr 0) with
    | .string p => s.gives (.string p)
    | v => s.makes (s.textOf v)
  | .listFromAny =>
    match s.boxed (ptr 0) with
    | .list p => s.gives (.list p)
    | _ => s.makesList
  | .anyIsEq => s.gives (.bool (s.boxedEq (s.boxed (ptr 0)) (s.boxed (ptr 1))))
  | .anyTypeName => s.makes (ofString (s.boxed (ptr 0)).kind.name)
  -- strings
  | .stringFromLiteral => s.makes (argument args 0).toText
  | .stringFromInteger => s.makes (formatInt (int 0))
  | .stringFromFloat => s.makes (formatFloat (flt 0))
  | .stringFromBool => s.makes (formatBool (bool 0))
  | .stringFromColor => s.makes (formatColor (int 0))
  | .stringToInteger => s.gives (.integer (leadingInt (s.bytes (ptr 0))))
  | .stringToFloat => s.gives (.float (leadingFloat (s.bytes (ptr 0))))
  | .stringJoin => s.makes (s.bytes (ptr 0) ++ s.bytes (ptr 1))
  | .stringLength => s.gives (.integer (length (s.bytes (ptr 0))))
  | .stringLetterIn => s.makes (letterAt (s.bytes (ptr 1)) (int 0))
  | .stringSubstring => s.makes (substring (s.bytes (ptr 2)) (int 0) (int 1))
  | .stringOrd => s.gives (.integer (ord (s.bytes (ptr 0))))
  | .stringChr => s.makes (chr (int 0))
  | .stringIsEq => s.gives (.bool (s.bytes (ptr 0) == s.bytes (ptr 1)))
  -- lists
  | .listNew => s.makesList
  | .listAdd => s.asks (.add (ptr 0) (argument args 1).toElement) fun _ => .zero
  | .listGet => s.boxes (s.elementAt (ptr 0) (int 1))
  | .listSet => s.asks (.set (ptr 0) (int 1) (argument args 2).toElement) fun _ => .zero
  | .listLength => s.gives (.integer (Int64.ofNat (s.listLength (ptr 0))))
  -- terminal
  | .printLiteral => counts (s.print (argument args 0).toText)
  | .printString => counts (s.print (s.bytes (ptr 0)))
  | .printInteger => counts (s.print (formatInt (int 0)))
  | .printFloat => counts (s.print (formatFloat (flt 0)))
  | .printBool => counts (s.print (formatBool (bool 0)))
  | .printColor => counts (s.print (formatColor (int 0)))
  | .printList => counts (s.print (formatList (s.listLength (ptr 0))))
  | .printAny => counts (s.printBoxed (s.boxed (ptr 0)))
  | .termInput => { s with input := (Input.readLine s.input).2 }.makes (Input.readLine s.input).1
  | .termGetChar => { s with input := (Input.readLetter s.input).2 }.makes (Input.readLetter s.input).1
  | .termSetFgColor => (s.setForeground (int 0)).gives .zero
  | .termSetBgColor => (s.setBackground (int 0)).gives .zero
  | .termResetColor => s.resetColors.gives .zero
  | .termSetClearColor => (s.setClearColor (int 0)).gives .zero
  | .termClear => s.clearScreen.gives .zero
  | .termSetCursor => (s.moveCursor (int 0) (int 1)).gives .zero
  | .termCursorX => s.gives (.integer s.terminal.cursor.x)
  | .termCursorY => s.gives (.integer s.terminal.cursor.y)
  | .termCursorMaxX => s.gives (.integer s.terminal.size.columns)
  | .termCursorMaxY => s.gives (.integer s.terminal.size.rows)
  -- time, chance and numbers
  | .sleep => s.gives (.integer (s.sleep (int 0)))
  | .random => counts (s.random (int 0) (int 1))
  | .unixTime => s.gives (.integer s.clock)
  | .intPow => s.gives (.integer (Number.intPow (int 0) (int 1)))
  | .floatPow => s.gives (.float (Float.pow (flt 0) (flt 1)))
  | .floatRem => s.gives (.float (Binary64.rem (flt 0) (flt 1)))
  | .math => s.gives (.float (MathFunction.applyIndex (int 0) (flt 1)))
  | _ => s.gives .zero

namespace Session

/-! ### Output -/

def atop (s x : Session) : Session :=
  { x with terminal := s.terminal, input := s.input, stop := s.stop, abort := s.abort }

theorem send_atop (s x : Session) (b : Bytes) : (s.atop x).send b = ((s.send b).1, (s.send b).2.atop x) := by
  unfold send
  rw [show (s.atop x).terminal = s.terminal from rfl]
  split <;> rfl

theorem control_atop (s x : Session) (b : Bytes) : (s.atop x).control b = (s.control b).atop x := by
  unfold control
  rw [send_atop]

theorem print_atop (s x : Session) (b : Bytes) : (s.atop x).print b = ((s.print b).1, (s.print b).2.atop x) := by
  unfold print
  rw [send_atop]
  split
  · rfl
  · obtain ⟨_ | _, t⟩ := s.send b <;> rfl

theorem clearScreen_atop (s x : Session) : (s.atop x).clearScreen = s.clearScreen.atop x := by
  unfold clearScreen
  rw [show (s.atop x).terminal = s.terminal from rfl]
  cases s.terminal.clearColor with
  | none =>
    simp only [control_atop]
    rfl
  | some color =>
    simp only [control_atop]
    generalize (s.control (Escape.background color)).control Escape.clear = t
    rw [show (t.atop x).terminal = t.terminal from rfl]
    split <;> rfl

/-- The first session differs from the second only outside of memory: in what it has shown, in what it
may still read, in chance, and perhaps in a request to stop that is new. -/
structure Fronts (s' s : Session) : Prop where
  memory : s'.memory = s.memory
  abort : s'.abort = s.abort
  clock : s'.clock = s.clock
  stop : s.stop = true → s'.stop = true

namespace Fronts

variable {s s' : Session}

theorem refl (s : Session) : Fronts s s := ⟨rfl, rfl, rfl, id⟩

theorem trans (h : Fronts s'' s') (h' : Fronts s' s) : Fronts s'' s :=
  ⟨h.memory.trans h'.memory, h.abort.trans h'.abort, h.clock.trans h'.clock, h.stop ∘ h'.stop⟩

theorem terminal (h : Fronts s' s) : Fronts { s' with terminal := t } s :=
  ⟨h.memory, h.abort, h.clock, h.stop⟩

theorem send (s : Session) (b : Bytes) : Fronts (s.send b).2 s := by
  unfold Session.send
  split
  · exact ⟨rfl, rfl, rfl, fun hstop => by simp [hstop]⟩
  · exact refl s

theorem print (s : Session) (b : Bytes) : Fronts (s.print b).2 s := by
  have hsend := send s b
  unfold Session.print
  split
  · exact refl s
  · split
    next s₁ heq =>
      rw [heq] at hsend
      exact hsend.terminal
    next s₁ heq =>
      rw [heq] at hsend
      exact hsend

theorem control (b : Bytes) (h : Fronts s' s) : Fronts (s'.control b) s :=
  (send s' b).trans h

theorem setBackground (s : Session) (color : Int64) : Fronts (s.setBackground color) s :=
  ((refl s).control _).terminal

theorem resetColors (s : Session) : Fronts s.resetColors s :=
  ((refl s).control _).terminal

theorem clearScreen (s : Session) : Fronts s.clearScreen s := by
  unfold Session.clearScreen
  refine terminal ?_
  cases hc : s.terminal.clearColor with
  | none => exact (refl s).control _
  | some color =>
    have hfill := ((refl s).control (Escape.background color)).control Escape.clear
    simp only
    split
    · exact hfill.control _
    · exact hfill.control _

theorem random (s : Session) (a b : Int64) : Fronts (s.random a b).2 s := by
  have hsnd : (s.random a b).2 = { s with entropy := nextEntropy s.entropy } := by
    unfold Session.random
    dsimp only
  rw [hsnd]
  exact ⟨rfl, rfl, rfl, id⟩

theorem carry_gives (h : Fronts s' s) (v : Value) : (s'.gives v).carry s = (v, s') := by
  obtain ⟨hmemory, habort, hclock, -⟩ := h
  cases s
  cases s'
  subst hmemory habort hclock
  rfl

end Fronts

theorem carry_boxes (s : Session) (v : Boxed) : (s.boxes v).carry s = anyResult (s.allocAny v) := by
  unfold boxes allocAny
  split <;> rfl

end Session

theorem Entry.run_eq_carry {e : Entry} (h : e.ordinary = true) (args : List Value) (s : Session) :
    e.run args s = (e.plan args s).carry s := by
  cases e with
  | rootBegin | rootEnd | rootSave | rootRestore | flush | addRoot | addTempRoot => cases h
  | anyFromInteger | anyFromFloat | anyFromBool | anyFromColor | anyFromString | anyFromList | listGet =>
    exact (carry_boxes s _).symm
  | stringFromAny | listFromAny =>
    simp only [run, plan]
    cases s.boxed (argument args 0).pointer <;> rfl
  | printLiteral | printString | printInteger | printFloat | printBool | printColor | printList
  | printAny => exact ((Fronts.print s _).carry_gives _).symm
  | termSetFgColor => exact (((Fronts.refl s).control _).carry_gives _).symm
  | termSetBgColor => exact ((Fronts.setBackground s _).carry_gives _).symm
  | termResetColor => exact ((Fronts.resetColors s).carry_gives _).symm
  | termClear => exact ((Fronts.clearScreen s).carry_gives _).symm
  | termSetCursor => exact (((Fronts.refl s).control _).terminal.carry_gives _).symm
  | random => exact ((Fronts.random s _ _).carry_gives _).symm
  | _ => rfl

end Blockwork
