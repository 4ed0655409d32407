import Blockwork.Memory.Collector
import Blockwork.Terminal.Basic
import Blockwork.Terminal.Input
import Blockwork.Number.MathFunction

/-! # A session
Everything one run of a program works on. A fatal condition is only recorded; the program goes on
with a fallback value until it next asks whether to stop. -/

namespace Blockwork

inductive Fatal where
  | outOfMemory (e : OutOfMemory)
  | roots (e : RootError)
  | host (message : String)
  deriving DecidableEq, Repr

def Fatal.message : Fatal → String
  | outOfMemory e => e.message
  | roots e => e.message
  | host m => m

structure Session where
  memory : Memory
  terminal : Terminal := {}
  input : Bytes := []
  stop : Bool := false
  abort : Option Fatal := none
  entropy : UInt64 := 0x9E3779B97F4A7C15
  clock : Int64 := 1700000000
  deriving DecidableEq, Inhabited

namespace Session

/-! ### Stopping -/

def shouldExit (s : Session) : Bool :=
  s.abort.isSome || s.stop

def fail (s : Session) (e : Fatal) : Session :=
  if s.abort.isSome then s else { s with abort := some e }

def check (s : Session) : Option RootError → Session
  | some e => s.fail (.roots e)
  | none => s

/-! ### Root frames -/

def onRoots (s : Session) (f : Roots → Option RootError × Roots) : Session :=
  match s with
  | ⟨⟨heap, roots, slots⟩, terminal, input, stop, abort, entropy, clock⟩ =>
    match f roots with
    | (e, roots) => check ⟨⟨heap, roots, slots⟩, terminal, input, stop, abort, entropy, clock⟩ e

def rootBegin (s : Session) : Session := s.onRoots Roots.openFrame

def rootEnd (s : Session) : Session := s.onRoots Roots.closeFrame

def rootSave (s : Session) : Session := s.onRoots fun r => (none, r.save)

def rootRestore (s : Session) : Session := s.onRoots Roots.restore

def flush (s : Session) : Session := s.onRoots fun r => (none, r.flush)

def addRoot (s : Session) (slot : Nat) : Session := s.onRoots fun r => (none, r.addNamed slot)

def addTempRoot (s : Session) (p : Pointer) : Session := s.onRoots fun r => (none, r.addTemp p)

def collect (s : Session) : Session :=
  { s with memory := s.memory.collect }

/-! ### Allocation -/

def alloc (s : Session) (size : Nat) (p : Payload) : Option Pointer × Session :=
  match s.memory.malloc size p with
  | (.ok q, m) => (some q, { s with memory := m })
  | (.error e, m) => (none, { s with memory := m }.fail (.outOfMemory e))

def allocOr (s : Session) (size : Nat) (p : Payload) (fallback : Static) : Pointer × Session :=
  match s.alloc size p with
  | (some q, s) => (q, s)
  | (none, s) => (.static fallback, s)

def allocString (s : Session) (b : Bytes) : Pointer × Session :=
  s.allocOr (stringSize b.length) (.string b) .emptyString

def allocAny (s : Session) (v : Boxed) : Pointer × Session :=
  if v = .nothing then (.static .nothing, s) else s.allocOr anySize (.any v) .nothing

def allocList (s : Session) : Pointer × Session :=
  s.allocOr listSize (.list ⟨0, 0, .null⟩) .emptyList

/-! ### Reading memory -/

def bytes (s : Session) (p : Pointer) : Bytes := s.memory.heap.bytes p

def boxed (s : Session) (p : Pointer) : Boxed := s.memory.heap.boxed p

def listLength (s : Session) (p : Pointer) : Nat := (s.memory.heap.listHeader p).len

def elementOf (s : Session) : Value → Boxed
  | .integer v => .integer v
  | .float v => .float v
  | .bool v => .bool v
  | .color v => .color v
  | .string p => .string p
  | .list p => .list p
  | .any p => s.boxed p
  | .element b => b
  | _ => .nothing

end Session

end Blockwork
