import Blockwork.Memory.Roots

/-! # The heap
Chunks in the order of their allocation, newest first. An address is never used again, and the size
counts against the limits. A list keeps its elements in a separate chunk, its backing storage. -/

namespace Blockwork

def anySize : Nat := 16

def listSize : Nat := 24

/-- Size of a string of `n` bytes: a length word in front, a zero byte at the end. -/
def stringSize (n : Nat) : Nat := 8 + n + 1

/-- Header of a list: length, capacity and backing storage. -/
structure ListHeader where
  len : Nat
  cap : Nat
  items : Pointer
  deriving DecidableEq, Inhabited

inductive Payload where
  | raw (items : Array Boxed)
  | any (v : Boxed)
  | string (b : Bytes)
  | list (h : ListHeader)
  deriving DecidableEq, Inhabited

inductive ChunkKind where
  | raw
  | any
  | string
  | list
  deriving DecidableEq, Repr

def ChunkKind.zeroed : ChunkKind → Payload
  | raw => .raw #[]
  | any => .any .nothing
  | string => .string []
  | list => .list ⟨0, 0, .null⟩

def Static.payload : Static → Payload
  | nothing => .any .nothing
  | emptyString => .string []
  | emptyList => .list ⟨0, 0, .null⟩

structure Chunk where
  addr : Nat
  size : Nat
  payload : Payload
  marked : Bool := false
  deriving DecidableEq, Inhabited

/-- The chunks and their bookkeeping. `used` is the total size of the chunks, `threshold` the level at
which a collection is due, and `limit` the most that may ever be used. -/
structure Heap where
  chunks : List Chunk := []
  next : Nat := 0
  used : Nat := 0
  threshold : Nat
  limit : Nat
  collections : Nat := 0
  deriving DecidableEq, Inhabited

namespace Heap

def new (low limit : Nat) : Heap :=
  { threshold := min (max low 1) (max limit 1), limit }

def find? (h : Heap) (addr : Nat) : Option Chunk :=
  h.chunks.find? (·.addr == addr)

def payload? (h : Heap) : Pointer → Option Payload
  | .null => none
  | .static s => some s.payload
  | .chunk addr => (h.find? addr).map Chunk.payload

def write (h : Heap) (addr : Nat) (p : Payload) : Heap :=
  { h with chunks := h.chunks.map fun c => if c.addr == addr then { c with payload := p } else c }

def push (h : Heap) (size : Nat) (p : Payload) : Heap :=
  { h with
    chunks := { addr := h.next, size, payload := p } :: h.chunks
    next := h.next + 1
    used := h.used + size }

def totalSize (cs : List Chunk) : Nat :=
  cs.foldr (fun c n => c.size + n) 0

/-! ### Reading payloads -/

def bytes (h : Heap) (p : Pointer) : Bytes :=
  match h.payload? p with
  | some (.string b) => b
  | _ => []

def boxed (h : Heap) (p : Pointer) : Boxed :=
  match h.payload? p with
  | some (.any v) => v
  | _ => .nothing

def listHeader (h : Heap) (p : Pointer) : ListHeader :=
  match h.payload? p with
  | some (.list l) => l
  | _ => ⟨0, 0, .null⟩

def storage (h : Heap) (p : Pointer) : Array Boxed :=
  match h.payload? p with
  | some (.raw items) => items
  | _ => #[]

def elements (h : Heap) (l : ListHeader) : List Boxed :=
  (h.storage l.items).toList.take l.len

def listElements (h : Heap) (p : Pointer) : List Boxed :=
  h.elements (h.listHeader p)

/-- Pointers stored in a chunk: that of a boxed value, or the backing storage of a list together
with the pointers among its elements. -/
def children (h : Heap) (c : Chunk) : List Pointer :=
  match c.payload with
  | .any v => v.pointers
  | .list l => if l.items = .null then [] else l.items :: (h.elements l).flatMap Boxed.pointers
  | _ => []

end Heap

end Blockwork
