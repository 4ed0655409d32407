import Blockwork.Proofs.Rooting.Plan
import Blockwork.Proofs.Rooting.Sound

/-! # What requests do
A request adds at most one temporary to the roots and leaves variables alone. -/

namespace Blockwork

namespace Session

abbrev grownSize (l : ListHeader) : Nat := grownCap l.cap * anySize

abbrev grown (s : Session) (l : ListHeader) : Payload :=
  .raw (storageOf (grownCap l.cap) (s.memory.heap.elements l))

/-! ### Allocations -/

theorem fail_memory (s : Session) (e : Fatal) : (s.fail e).memory = s.memory := by
  unfold fail
  split <;> rfl

theorem fail_stop (s : Session) (e : Fatal) : (s.fail e).stop = s.stop := by
  unfold fail
  split <;> rfl

theorem fail_abort (s : Session) (e : Fatal) :
    (s.fail e).abort = s.abort ∨ s.abort = none ∧ (s.fail e).abort = some e := by
  unfold fail
  split
  · exact Or.inl rfl
  next hnone => exact Or.inr ⟨by simpa using hnone, rfl⟩

theorem isSome_fail (s : Session) (e : Fatal) : (s.fail e).abort.isSome = true := by
  unfold fail
  split
  next h => exact h
  next => rfl

theorem memory_onRoots (s : Session) (f : Roots → Option RootError × Roots) :
    (s.onRoots f).memory = { s.memory with roots := (f s.memory.roots).2 } := by
  obtain ⟨⟨heap, roots, slots⟩, terminal, input, stop, abort, entropy, clock⟩ := s
  simp only [onRoots]
  cases f roots with
  | mk e r =>
    cases e with
    | none => rfl
    | some e => exact fail_memory _ _

theorem alloc_cases (s : Session) (size : Nat) (content : Payload) :
    ∃ m, (m = s.memory ∨ m = s.memory.makeRoom size) ∧ (s.alloc size content =
          (some (.chunk m.heap.next), { s with memory := (m.grant size content).2 }) ∨
        ∃ e, s.alloc size content = (none, { s with memory := m }.fail (.outOfMemory e))) := by
  obtain ⟨m, hm, hok | ⟨e, herr⟩⟩ := s.memory.malloc_cases size content
  · refine ⟨m, hm, Or.inl ?_⟩
    simp only [alloc, hok]
  · refine ⟨m, hm, Or.inr ⟨e, ?_⟩⟩
    simp only [alloc, herr]

/-- The second session follows the first after a request: variables stay, the roots have at most one
temporary more, and at most a refused allocation is recorded, unless something else was before. -/
structure Follows (s s' : Session) : Prop where
  slots : s'.memory.slots = s.memory.slots
  roots : s'.memory.roots = s.memory.roots ∨ ∃ p, s'.memory.roots = s.memory.roots.addTemp p
  stop : s'.stop = s.stop
  abort : s'.abort = s.abort ∨ s.abort = none ∧ ∃ e, s'.abort = some (.outOfMemory e)

theorem Follows.refl (s : Session) : Follows s s :=
  ⟨rfl, Or.inl rfl, rfl, Or.inl rfl⟩

theorem Follows.records (h : Follows s s') : s'.abort = s.abort ∨ ∃ e, s'.abort = some (.outOfMemory e) :=
  h.abort.imp_right And.right

theorem follows_alloc (s : Session) (size : Nat) (content : Payload) : Follows s (s.alloc size content).2 := by
  obtain ⟨m, hm, hcase⟩ := s.alloc_cases size content
  obtain ⟨hroots, hslots⟩ := Memory.room_cases hm
  rcases hcase with hok | ⟨e, herr⟩
  · rw [hok]
    exact ⟨hslots, Or.inr ⟨.chunk m.heap.next, by rw [← hroots]; rfl⟩, rfl, Or.inl rfl⟩
  · rw [herr]
    refine ⟨by rw [fail_memory]; exact hslots, Or.inl (by rw [fail_memory]; exact hroots), fail_stop _ _, ?_⟩
    rcases fail_abort { s with memory := m } (.outOfMemory e) with hsame | ⟨hnone, hnew⟩
    · exact Or.inl hsame
    · exact Or.inr ⟨hnone, e, hnew⟩

theorem follows_allocOr (s : Session) (size : Nat) (content : Payload) (fallback : Static) :
    Follows s (s.allocOr size content fallback).2 := by
  have halloc := s.follows_alloc size content
  unfold allocOr
  split
  next q s' heq =>
    rw [heq] at halloc
    exact halloc
  next s' heq =>
    rw [heq] at halloc
    exact halloc

/-! ### Lists -/

theorem setEntry_eq (s : Session) (items : Pointer) (i : Nat) (v : Boxed) :
    ∃ heap, s.setEntry items i v = { s with memory := { s.memory with heap } } := by
  unfold setEntry
  split
  · exact ⟨_, rfl⟩
  · exact ⟨s.memory.heap, rfl⟩

theorem Follows.on_heap (h : Follows s s') : Follows s { s' with memory := { s'.memory with heap } } :=
  ⟨h.slots, h.roots, h.stop, h.abort⟩

theorem follows_listAdd (s : Session) (p : Pointer) (v : Boxed) : Follows s (s.listAdd p v) := by
  unfold listAdd
  split
  next addr l _ =>
    unfold appendAt
    split
    · have halloc := s.follows_alloc (grownSize l) (s.grown l)
      simp only
      split
      next s' heq =>
        rw [heq] at halloc
        exact halloc
      next items s' heq =>
        rw [heq] at halloc
        obtain ⟨heap, hheap⟩ := s'.setEntry_eq items l.len v
        rw [hheap]
        exact halloc.on_heap.on_heap
    · obtain ⟨heap, hheap⟩ := s.setEntry_eq l.items l.len v
      rw [hheap]
      exact (Follows.refl s).on_heap.on_heap
  next => exact .refl s

theorem listSet_eq (s : Session) (p : Pointer) (index : Int64) (v : Boxed) :
    ∃ heap, s.listSet p index v = { s with memory := { s.memory with heap } } := by
  unfold listSet
  split
  · split
    · exact s.setEntry_eq _ _ _
    · exact ⟨s.memory.heap, rfl⟩
  · exact ⟨s.memory.heap, rfl⟩

end Session

open Session

theorem Request.follows (q : Request) (s : Session) : Follows s (q.carry s).2 := by
  cases q with
  | none => exact .refl s
  | collect => exact ⟨rfl, Or.inl rfl, rfl, Or.inl rfl⟩
  | alloc size content fallback => exact s.follows_allocOr size content fallback
  | add p v => exact s.follows_listAdd p v
  | set p i v =>
    obtain ⟨heap, hheap⟩ := s.listSet_eq p i v
    simp only [carry, hheap]
    exact (Follows.refl s).on_heap

theorem Request.roots_carry {q : Request} (h : q.grows = false) (s : Session) :
    (q.carry s).2.memory.roots = s.memory.roots := by
  cases q with
  | none | collect => rfl
  | alloc | add => cases h
  | set p i v =>
    obtain ⟨heap, hheap⟩ := s.listSet_eq p i v
    simp only [carry, hheap]

theorem Plan.follows (pl : Plan) (s : Session) : Follows (pl.front s) (pl.carry s).2 :=
  pl.request.follows (pl.front s)

theorem Entry.grows_plan {e : Entry} (h : e.allocates = false) (args : List Value) (s : Session) :
    (e.plan args s).request.grows = false := by
  cases e
  all_goals first | rfl | cases h

end Blockwork
