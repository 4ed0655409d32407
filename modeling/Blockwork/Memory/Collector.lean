import Blockwork.Memory.Heap

/-! # Mark and sweep
A collection marks what the roots reach and drops the rest. A pointer to an unmarked chunk marks it
and adds the pointers stored in it to the list; every other pointer is passed over. -/

namespace Blockwork

structure OutOfMemory where
  requested : Nat
  used : Nat
  limit : Nat
  deriving DecidableEq, Repr

def hostLimit : Nat := 0x10000000000

def OutOfMemory.message (e : OutOfMemory) : String :=
  "Out of memory: tried to allocate " ++ toString e.requested ++ " bytes with " ++
    toString e.used ++ " of " ++ toString e.limit ++ " bytes in use"

def Chunk.markAt (addr : Nat) (c : Chunk) : Chunk :=
  if c.addr = addr then { c with marked := true } else c

def Chunk.unmark (c : Chunk) : Chunk :=
  { c with marked := false }

namespace Heap

def mark (h : Heap) (addr : Nat) : Heap :=
  { h with chunks := h.chunks.map (Chunk.markAt addr) }

def unmarked? (h : Heap) : Pointer → Option Chunk
  | .chunk addr => (h.find? addr).filter fun c => !c.marked
  | _ => none

def reach (h : Heap) (p : Pointer) : Heap × List Pointer :=
  match h.unmarked? p with
  | none => (h, [])
  | some c => (h.mark c.addr, h.children c)

def unmarkedCount (h : Heap) : Nat :=
  h.chunks.countP fun c => !c.marked

theorem mem_of_unmarked? {h : Heap} {p : Pointer} {c : Chunk} (hc : h.unmarked? p = some c) :
    c ∈ h.chunks ∧ p = .chunk c.addr ∧ c.marked = false := by
  cases p with
  | null => simp [unmarked?] at hc
  | static s => simp [unmarked?] at hc
  | chunk addr =>
    obtain ⟨hfind, hmark⟩ := Option.filter_eq_some_iff.mp hc
    have haddr := List.find?_some hfind
    simp only [beq_iff_eq] at haddr
    exact ⟨List.mem_of_find?_eq_some hfind, by rw [haddr], by simpa using hmark⟩

/-- Marking takes the unmarked chunks at the address away and adds none. -/
theorem countP_markAt (addr : Nat) (cs : List Chunk) :
    (cs.map (Chunk.markAt addr)).countP (fun c => !c.marked) +
      cs.countP (fun c => !c.marked && c.addr == addr) = cs.countP (fun c => !c.marked) := by
  induction cs with
  | nil => rfl
  | cons c cs ih =>
    simp only [List.map_cons, List.countP_cons, Chunk.markAt] at ih ⊢
    by_cases ha : c.addr = addr
    · cases hm : c.marked <;> simp [ha, -List.countP_map] <;> omega
    · cases hm : c.marked <;> simp [ha, hm, -List.countP_map] <;> omega

theorem unmarkedCount_reach (h : Heap) (p : Pointer) :
    h.reach p = (h, []) ∨ (h.reach p).1.unmarkedCount < h.unmarkedCount := by
  cases hc : h.unmarked? p with
  | none => exact Or.inl (by simp only [reach, hc])
  | some c =>
    obtain ⟨hmem, -, hmark⟩ := mem_of_unmarked? hc
    have hcount := countP_markAt c.addr h.chunks
    have hpos : 0 < h.chunks.countP (fun d => !d.marked && d.addr == c.addr) :=
      List.countP_pos_iff.mpr ⟨c, hmem, by simp [hmark]⟩
    refine Or.inr ?_
    simp only [reach, hc, unmarkedCount, mark]
    omega

def markFrom (h : Heap) : List Pointer → Heap
  | [] => h
  | p :: work => (h.reach p).1.markFrom ((h.reach p).2 ++ work)
  termination_by work => (h.unmarkedCount, work.length)
  decreasing_by
    rcases h.unmarkedCount_reach p with heq | hlt
    · rw [heq]
      exact Prod.Lex.right _ (by simp)
    · exact Prod.Lex.left _ _ hlt

def sweep (h : Heap) : Heap :=
  { h with
    chunks := (h.chunks.filter fun c => c.marked).map Chunk.unmark
    used := h.used - totalSize (h.chunks.filter fun c => !c.marked)
    collections := h.collections + 1 }

end Heap

structure Memory where
  heap : Heap
  roots : Roots := {}
  slots : Array Value := #[]
  deriving DecidableEq, Inhabited

namespace Memory

def new (low limit : Nat) : Memory :=
  { heap := Heap.new low limit }

def slot (m : Memory) (i : Nat) : Value :=
  m.slots.getD i .zero

def setSlot (m : Memory) (i : Nat) (v : Value) : Memory :=
  { m with slots := m.slots.setIfInBounds i v }

/-- Pointers that keep chunks alive: temporaries, newest first, then the content of named roots. -/
def rootPointers (m : Memory) : List Pointer :=
  m.roots.temps.toList.reverse ++
    (m.roots.named.toList.map fun i => (m.slot i).pointer).filter (· ≠ .null)

def collect (m : Memory) : Memory :=
  { m with heap := (m.heap.markFrom m.rootPointers).sweep }

def raiseThreshold (m : Memory) : Memory :=
  { m with heap := { m.heap with threshold := min (m.heap.threshold * 2) m.heap.limit } }

def fits (m : Memory) (size : Nat) : Bool :=
  m.heap.used + size ≤ m.heap.threshold

def grant (m : Memory) (size : Nat) (p : Payload) : Pointer × Memory :=
  let addr := m.heap.next
  (.chunk addr, { m with heap := m.heap.push size p, roots := m.roots.addTemp (.chunk addr) })

def outOfMemory (m : Memory) (size : Nat) : OutOfMemory :=
  ⟨size, m.heap.used, m.heap.limit⟩

/-- Make room for a request: collect when it does not fit, then raise the threshold once when that
was not enough. -/
def makeRoom (m : Memory) (size : Nat) : Memory :=
  if m.fits size then m
  else
    let m := m.collect
    if m.fits size then m else m.raiseThreshold

/-- Allocate a chunk of `size` bytes. A request over the limit, or one that a word cannot count, is
refused before room is made for it; one that the host does not grant is refused after. -/
def malloc (m : Memory) (size : Nat) (p : Payload) : Except OutOfMemory Pointer × Memory :=
  if size > m.heap.limit ∨ m.heap.used + size ≥ UInt64.size then (.error (m.outOfMemory size), m)
  else
    let m := m.makeRoom size
    if m.fits size ∧ size ≤ hostLimit then
      let (q, m) := m.grant size p
      (.ok q, m)
    else (.error (m.outOfMemory size), m)

end Memory

end Blockwork
