/-! # Programs

A program is an ordered list of chains of blocks, together with the templates of the blocks that its
own chains define. -/

namespace Blockwork

mutual

inductive Block where
  | mk (id : String) (args : List Argument)

inductive Argument where
  | text (s : String)
  | constant (s : String)
  | block (b : Block)
  | blockdef (id : String)
  | color (s : String)

end

namespace Block

def id : Block → String
  | mk id _ => id

def args : Block → List Argument
  | mk _ args => args

end Block

instance : Inhabited Block := ⟨.mk "" []⟩

mutual

def Block.decEq : (a b : Block) → Decidable (a = b)
  | .mk i as, .mk j bs =>
    if h : i = j then
      match Argument.decEqList as bs with
      | isTrue h' => isTrue (by rw [h, h'])
      | isFalse h' => isFalse (by intro e; injection e; exact h' (by assumption))
    else isFalse (by intro e; injection e; exact h (by assumption))

def Argument.decEq : (a b : Argument) → Decidable (a = b)
  | .block a, .block b =>
    match Block.decEq a b with
    | isTrue h => isTrue (by rw [h])
    | isFalse h => isFalse (by intro e; injection e; exact h (by assumption))
  | .text s, .text t => if h : s = t then isTrue (by rw [h]) else isFalse (by simp [h])
  | .constant s, .constant t => if h : s = t then isTrue (by rw [h]) else isFalse (by simp [h])
  | .blockdef s, .blockdef t => if h : s = t then isTrue (by rw [h]) else isFalse (by simp [h])
  | .color s, .color t => if h : s = t then isTrue (by rw [h]) else isFalse (by simp [h])
  | .text _, .constant _ => isFalse nofun
  | .text _, .block _ => isFalse nofun
  | .text _, .blockdef _ => isFalse nofun
  | .text _, .color _ => isFalse nofun
  | .constant _, .text _ => isFalse nofun
  | .constant _, .block _ => isFalse nofun
  | .constant _, .blockdef _ => isFalse nofun
  | .constant _, .color _ => isFalse nofun
  | .block _, .text _ => isFalse nofun
  | .block _, .constant _ => isFalse nofun
  | .block _, .blockdef _ => isFalse nofun
  | .block _, .color _ => isFalse nofun
  | .blockdef _, .text _ => isFalse nofun
  | .blockdef _, .constant _ => isFalse nofun
  | .blockdef _, .block _ => isFalse nofun
  | .blockdef _, .color _ => isFalse nofun
  | .color _, .text _ => isFalse nofun
  | .color _, .constant _ => isFalse nofun
  | .color _, .block _ => isFalse nofun
  | .color _, .blockdef _ => isFalse nofun

def Argument.decEqList : (as bs : List Argument) → Decidable (as = bs)
  | [], [] => isTrue rfl
  | [], _ :: _ => isFalse nofun
  | _ :: _, [] => isFalse nofun
  | a :: as, b :: bs =>
    match Argument.decEq a b with
    | isFalse h => isFalse (by intro e; injection e; exact h (by assumption))
    | isTrue h =>
      match Argument.decEqList as bs with
      | isTrue h' => isTrue (by rw [h, h'])
      | isFalse h' => isFalse (by intro e; injection e; exact h' (by assumption))

end

instance : DecidableEq Block := Block.decEq

instance : DecidableEq Argument := Argument.decEq

/-- Blocks run in order, led by a hat block. -/
structure Chain where
  blocks : List Block
  deriving DecidableEq, Inhabited

/-- One part of a template: a label, or a parameter with the name of the block that reads it. -/
inductive Input where
  | label (s : String)
  | parameter (id : String)
  deriving DecidableEq, Inhabited

/-- Template of a block that the program defines. -/
structure Blockdef where
  id : String
  inputs : List Input := []
  deriving DecidableEq, Inhabited

structure Program where
  chains : List Chain := []
  blockdefs : List Blockdef := []
  deriving DecidableEq, Inhabited

namespace Chain

def head? (c : Chain) : Option Block := c.blocks.head?

end Chain

namespace Blockdef

def params (d : Blockdef) : List String :=
  d.inputs.filterMap fun
    | .parameter id => some id
    | .label _ => none

end Blockdef

namespace Program

def findBlockdef? (p : Program) (id : String) : Option Blockdef :=
  p.blockdefs.find? (·.id == id)

end Program

/-! ### Locations -/

/-- Place of a block: its chain, its position there, and then the argument positions that lead to
it. -/
structure Location where
  chain : Nat
  path : List Nat
  deriving DecidableEq, Repr, Inhabited

namespace Location

def child (l : Location) (i : Nat) : Location :=
  { l with path := l.path ++ [i] }

def hasParent (l : Location) : Bool :=
  l.path.length > 1

def descend (b : Block) : List Nat → Option Block
  | [] => some b
  | i :: rest =>
    match b.args[i]? with
    | some (.block inner) => descend inner rest
    | _ => none

def resolve (l : Location) (p : Program) : Option Block :=
  match p.chains[l.chain]?, l.path with
  | some c, i :: rest => (c.blocks[i]?).bind (descend · rest)
  | _, _ => none

def describe (l : Location) : String :=
  let start := "chain " ++ toString l.chain
  match l.path with
  | [] => start
  | i :: rest =>
    start ++ ", block " ++ toString i ++ String.join (rest.map fun a => " > arg " ++ toString a)

end Location

end Blockwork
