import Blockwork.Session.Basic

/-! # Lists

A list grows by doubling: when it is full, its elements move to a backing storage of twice the
capacity. Null and the static empty list take no elements. -/

namespace Blockwork.Session

def setHeader (s : Session) (addr : Nat) (l : ListHeader) : Session :=
  { s with memory := { s.memory with heap := s.memory.heap.write addr (.list l) } }

def setEntry (s : Session) (items : Pointer) (i : Nat) (v : Boxed) : Session :=
  match items with
  | .chunk addr =>
    let entries := (s.memory.heap.storage items).setIfInBounds i v
    { s with memory := { s.memory with heap := s.memory.heap.write addr (.raw entries) } }
  | _ => s

def grownCap (cap : Nat) : Nat :=
  if cap = 0 then 1 else cap * 2

def storageOf (cap : Nat) (old : List Boxed) : Array Boxed :=
  (old ++ List.replicate (cap - old.length) Boxed.nothing).toArray

/-- Append an element to the list at an address. When growth is refused the list stays as it is. -/
def appendAt (s : Session) (addr : Nat) (l : ListHeader) (v : Boxed) : Session :=
  if l.len = l.cap then
    let cap := grownCap l.cap
    match s.alloc (cap * anySize) (.raw (storageOf cap (s.memory.heap.elements l))) with
    | (none, s) => s
    | (some items, s) => (s.setEntry items l.len v).setHeader addr ⟨l.len + 1, cap, items⟩
  else (s.setEntry l.items l.len v).setHeader addr { l with len := l.len + 1 }

def listAdd (s : Session) (p : Pointer) (v : Boxed) : Session :=
  match p, s.memory.heap.payload? p with
  | .chunk addr, some (.list l) => s.appendAt addr l v
  | _, _ => s

def listSet (s : Session) (p : Pointer) (index : Int64) (v : Boxed) : Session :=
  match p, s.memory.heap.payload? p with
  | .chunk _, some (.list l) =>
    if 0 ≤ index.toInt ∧ index.toInt < l.len then s.setEntry l.items index.toInt.toNat v else s
  | _, _ => s

def elementAt (s : Session) (p : Pointer) (index : Int64) : Boxed :=
  if index.toInt < 0 then .nothing
  else ((s.memory.heap.listElements p)[index.toInt.toNat]?).getD .nothing

def listGet (s : Session) (p : Pointer) (index : Int64) : Pointer × Session :=
  s.allocAny (s.elementAt p index)

end Blockwork.Session
