import Blockwork.Value.Basic

/-! # Roots
Named roots are variables, whose content is read at every collection, and temporaries are pointers.
A frame remembers how high both stacks stood when it was opened; a saved mark remembers how many
frames were open, so that a function can leave from any depth. -/

namespace Blockwork

def maxRootDepth : Nat := 16384

structure RootFrame where
  named : Nat
  temps : Nat
  deriving DecidableEq, Repr

inductive RootError where
  | overflow
  | underflow
  deriving DecidableEq, Repr

def RootError.message : RootError → String
  | overflow => "Gc stack overflow"
  | underflow => "Gc stack underflow"

/-- The root stacks, the open frames and the saved marks, each growing at its end. -/
structure Roots where
  frames : Array RootFrame := #[]
  named : Array Nat := #[]
  temps : Array Pointer := #[]
  marks : Array Nat := #[]
  deriving DecidableEq, Inhabited

namespace Roots

def depth (r : Roots) : Nat := r.frames.size

def savedDepth (r : Roots) : Nat := r.marks.size

/-- Open a frame. It is opened even past the limit, so that its close stays matched. -/
def openFrame (r : Roots) : Option RootError × Roots :=
  let r' := { r with frames := r.frames.push ⟨r.named.size, r.temps.size⟩ }
  (if r'.depth > maxRootDepth then some .overflow else none, r')

def cutTo (r : Roots) (f : RootFrame) : Roots :=
  { r with named := r.named.shrink f.named, temps := r.temps.shrink f.temps }

def closeFrame (r : Roots) : Option RootError × Roots :=
  match r.frames.back? with
  | none => (some .underflow, r)
  | some f => (none, { r.cutTo f with frames := r.frames.pop })

def save (r : Roots) : Roots :=
  { r with marks := r.marks.push r.depth }

def restore (r : Roots) : Option RootError × Roots :=
  match r.marks.back? with
  | none => (some .underflow, r)
  | some mark =>
    let r := { r with marks := r.marks.pop }
    match r.frames[mark]? with
    | none => (none, r)
    | some f => (none, { r.cutTo f with frames := r.frames.shrink mark })

/-- Drop the temporaries of the innermost frame, or all of them when no frame is open. -/
def flush (r : Roots) : Roots :=
  { r with temps := r.temps.shrink ((r.frames.back?.map RootFrame.temps).getD 0) }

def addNamed (r : Roots) (slot : Nat) : Roots :=
  { r with named := r.named.push slot }

/-- Keep a pointer alive until the innermost frame is flushed or closed. -/
def addTemp (r : Roots) (p : Pointer) : Roots :=
  if p = .null then r else { r with temps := r.temps.push p }

end Roots

end Blockwork
