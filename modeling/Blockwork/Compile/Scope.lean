import Blockwork.Compile.Error

/-! # Scopes
Bookkeeping of one function while its chains are lowered. What a scope needs at its end is kept in
its frame, whose content is a parameter here. Operations that can fail give the outcome beside the
state after it. -/

namespace Blockwork

def maxOpenScopes : Nat := 32768

/-- What an open scope is: one that an `end` closes, or the body of a defined block. -/
inductive Frame (α : Type) where
  | body (a : α)
  | function
  deriving DecidableEq, Repr

structure OpenScope (α : Type) where
  loc : Location
  frame : Frame α
  deriving DecidableEq, Repr

inductive Storage where
  | constant (text : String)
  | slot (i : Nat)
  | global (i : Nat)
  deriving DecidableEq, Repr

structure Variable where
  name : String
  ty : DataType
  storage : Storage
  deriving DecidableEq, Repr

structure VariableFrame where
  base : Nat
  slotMark : Nat
  deriving DecidableEq, Repr

/-- A root scope: where its code begins, and whether anything in it needs it. -/
structure RootScope where
  start : Nat
  required : Bool
  deriving DecidableEq, Repr

/-- Scopes of one function. All stacks grow at their end. -/
structure Scopes (α : Type) where
  control : Array (OpenScope α) := #[]
  opening : Option (Frame α) := none
  closing : Option (Frame α) := none
  locals : Array Variable := #[]
  variableFrames : Array VariableFrame := #[]
  /-- Slots created so far; the first `slotsUsed` of them are in use. -/
  slots : Array Nat := #[]
  slotsUsed : Nat := 0
  rootScopes : Array RootScope := #[]
  dirty : Bool := false
  dirtyStack : Array Bool := #[]
  deriving DecidableEq, Repr, Inhabited

namespace Scopes

variable {α : Type}

abbrev Outcome (α β : Type) := Except CompileError β × Scopes α

def failed {β : Type} (cause : Cause) (loc : Option Location) (s : Scopes α) : Outcome α β :=
  (.error ⟨cause, loc⟩, s)

/-- Start a new chain. Slots and root scopes belong to the function and stay. -/
def resetChain (s : Scopes α) : Scopes α :=
  { slots := s.slots, rootScopes := s.rootScopes }

/-! ### Open scopes -/

def openFrame (s : Scopes α) (f : Frame α) : Scopes α :=
  { s with opening := some f }

def closeFrame (s : Scopes α) (loc : Location) : Outcome α (Frame α) :=
  match s.closing with
  | some f => (.ok f, { s with closing := none })
  | none => failed .invalidControl (some loc) s

def pushOpened (s : Scopes α) (loc : Location) : Outcome α Bool :=
  match s.opening with
  | none => (.ok false, s)
  | some f =>
    let s := { s with opening := none }
    if s.control.size ≥ maxOpenScopes then failed .controlOverflow (some loc) s
    else (.ok true, { s with control := s.control.push ⟨loc, f⟩ })

/-- Pop the innermost scope and keep its frame for `closeFrame`; the place of its opener. The body of
a defined block cannot be popped. -/
def popControl (s : Scopes α) (loc : Location) : Outcome α Location :=
  match s.control.back? with
  | some ⟨opener, .body a⟩ =>
    (.ok opener, { s with control := s.control.pop, closing := some (.body a) })
  | _ => failed .controlUnderflow (some loc) s

def takeInnermost (s : Scopes α) : Option (OpenScope α) × Scopes α :=
  (s.control.back?, { s with control := s.control.pop })

def controlDepth (s : Scopes α) : Nat := s.control.size

/-! ### Variables -/

def pushVariableFrame (s : Scopes α) (loc : Location) : Outcome α Unit :=
  if s.variableFrames.size ≥ maxOpenScopes then failed .variableOverflow (some loc) s
  else (.ok (), { s with variableFrames := s.variableFrames.push ⟨s.locals.size, s.slotsUsed⟩ })

def popVariableFrame (s : Scopes α) (loc : Location) : Outcome α Unit :=
  match s.variableFrames.back? with
  | none => failed .variableUnderflow (some loc) s
  | some f =>
    (.ok (),
      { s with
        variableFrames := s.variableFrames.pop
        locals := s.locals.shrink f.base
        slotsUsed := f.slotMark })

def declare (s : Scopes α) (v : Variable) : Scopes α :=
  { s with locals := s.locals.push v }

def lastNamed? (vs : Array Variable) (name : String) : Option Nat :=
  (vs.toList.reverse.findIdx? (·.name == name)).map (vs.size - 1 - ·)

def findLocal? (s : Scopes α) (name : String) : Option Variable :=
  s.locals.toList.reverse.find? (·.name == name)

/-- Change where the innermost visible variable with a name lives; whether there is one. -/
def setLocal (s : Scopes α) (name : String) (storage : Storage) : Bool × Scopes α :=
  match lastNamed? s.locals name with
  | none => (false, s)
  | some i =>
    (true, { s with locals := s.locals.modify i fun v => { v with storage } })

def reuseSlot (s : Scopes α) : Option Nat × Scopes α :=
  match s.slots[s.slotsUsed]? with
  | some i => (some i, { s with slotsUsed := s.slotsUsed + 1 })
  | none => (none, s)

def addSlot (s : Scopes α) (i : Nat) : Scopes α :=
  { s with slots := (s.slots.shrink s.slotsUsed).push i, slotsUsed := s.slotsUsed + 1 }

/-! ### Root scopes and allocation -/

def pushRootScope (s : Scopes α) (start : Nat) (loc : Option Location) : Outcome α Unit :=
  if s.rootScopes.size ≥ maxOpenScopes then failed .scopeOverflow loc s
  else (.ok (), { s with rootScopes := s.rootScopes.push ⟨start, false⟩ })

def popRootScope (s : Scopes α) (loc : Option Location) : Outcome α RootScope :=
  match s.rootScopes.back? with
  | none => failed .scopeUnderflow loc s
  | some r => (.ok r, { s with rootScopes := s.rootScopes.pop })

def requireRootScope (s : Scopes α) : Scopes α :=
  { s with rootScopes := s.rootScopes.modify (s.rootScopes.size - 1) fun r => { r with required := true } }

def rootDepth (s : Scopes α) : Nat := s.rootScopes.size

def markDirty (s : Scopes α) : Scopes α :=
  { s.requireRootScope with dirty := true }

def setDirty (s : Scopes α) (b : Bool) : Scopes α :=
  { s with dirty := b }

def saveDirty (s : Scopes α) : Scopes α :=
  { s with dirtyStack := s.dirtyStack.push s.dirty, dirty := false }

def restoreDirty (s : Scopes α) : Scopes α :=
  { s with dirty := s.dirtyStack.back?.getD false, dirtyStack := s.dirtyStack.pop }

def openingDirty (s : Scopes α) : Bool :=
  s.dirtyStack.back?.getD false

end Scopes

end Blockwork
