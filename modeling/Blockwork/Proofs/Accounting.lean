import Mathlib.Algebra.GroupWithZero.Nat
import Mathlib.Data.List.Permutation
import Blockwork.Proofs.Collection

/-! # Accounting of the heap
Whatever is asked of memory, the counter of used bytes is the total size of the chunks and stays under the
threshold and the limit, and the threshold only ever doubles up to the limit. -/

namespace Blockwork.Memory

open Heap

inductive Act where
  | malloc (size : Nat) (kind : ChunkKind)
  | collect
  | flush
  | rootBegin
  | rootEnd
  | rootSave
  | rootRestore
  | addRoot (slot : Nat)
  | addTempRoot (p : Pointer)
  | store (slot : Nat) (v : Value)

def Act.run (m : Memory) : Act → Memory
  | malloc size kind => (m.malloc size kind.zeroed).2
  | collect => m.collect
  | flush => { m with roots := m.roots.flush }
  | rootBegin => { m with roots := m.roots.openFrame.2 }
  | rootEnd => { m with roots := m.roots.closeFrame.2 }
  | rootSave => { m with roots := m.roots.save }
  | rootRestore => { m with roots := m.roots.restore.2 }
  | addRoot slot => { m with roots := m.roots.addNamed slot }
  | addTempRoot p => { m with roots := m.roots.addTemp p }
  | store slot v => m.setSlot slot v

def after (m : Memory) (acts : List Act) : Memory :=
  acts.foldl Act.run m

/-- Bytes in front of the payload of a chunk. -/
def headerSize : Nat := 16

/-- The sums that a request may form, unless it is refused at once. -/
def sums (m : Memory) (size : Nat) : List Nat :=
  if m.heap.limit < size then []
  else
    [m.heap.used + size, m.collect.heap.used + size, (m.makeRoom size).heap.used + size, headerSize + size]

/-- What the next collection takes off the counter. -/
def swept (m : Memory) : Nat :=
  totalSize ((m.heap.markFrom m.rootPointers).chunks.filter fun c => !c.marked)

/-! ### The invariant -/

def firstThreshold (low limit : Nat) : Nat := min (max low 1) (max limit 1)

structure Accounted (low limit : Nat) (m : Memory) : Prop where
  tidy : m.heap.Tidy
  below : ∀ c ∈ m.heap.chunks, c.addr < m.heap.next
  limit_eq : m.heap.limit = limit
  used_le_threshold : m.heap.used ≤ m.heap.threshold
  used_le_limit : m.heap.used ≤ limit
  doubled : ∃ k, m.heap.threshold = min (firstThreshold low limit * 2 ^ k) (max limit 1)

section

variable {low limit size : Nat} {m : Memory}

theorem frame_collect (ht : m.heap.Tidy) :
    m.collect.heap.next = m.heap.next ∧ m.collect.heap.threshold = m.heap.threshold ∧
      m.collect.heap.limit = m.heap.limit := by
  simp only [collect, sweep]
  rw [(marking_collect ht).frame]
  exact ⟨rfl, rfl, rfl⟩

theorem collect_add_swept (ht : m.heap.Tidy) : m.collect.heap.used + m.swept = m.heap.used := by
  have hmark := marking_collect ht
  have hused := hmark.sweep_used ht
  rw [hmark.dropped ht, totalSize_map_unmark] at hused
  exact hused

namespace Accounted

theorem new (low limit : Nat) (slots : Array Value) : Accounted low limit { Memory.new low limit with slots } where
  tidy := ⟨List.nodup_nil, nofun, rfl⟩
  below := nofun
  limit_eq := rfl
  used_le_threshold := Nat.zero_le _
  used_le_limit := Nat.zero_le _
  doubled := ⟨0, by
    simp only [Memory.new, Heap.new, firstThreshold, Nat.pow_zero, Nat.mul_one]
    omega⟩

theorem threshold_bounds (h : Accounted low limit m) : 1 ≤ m.heap.threshold ∧ m.heap.threshold ≤ max limit 1 := by
  obtain ⟨k, hk⟩ := h.doubled
  have hfirst : 0 < firstThreshold low limit := by
    unfold firstThreshold
    omega
  have hpos : 0 < firstThreshold low limit * 2 ^ k := Nat.mul_pos hfirst (Nat.two_pow_pos k)
  omega

theorem congr (h : Accounted low limit m) (hheap : m'.heap = m.heap) : Accounted low limit m' :=
  ⟨hheap ▸ h.tidy, hheap ▸ h.below, hheap ▸ h.limit_eq, hheap ▸ h.used_le_threshold,
    hheap ▸ h.used_le_limit, hheap ▸ h.doubled⟩

theorem collect (h : Accounted low limit m) : Accounted low limit m.collect := by
  obtain ⟨hnext, hthreshold, hlimit⟩ := frame_collect h.tidy
  have hused := collect_add_swept h.tidy
  have hle := h.used_le_threshold
  have hmax := h.used_le_limit
  refine
    { tidy := tidy_collect h.tidy
      below := fun c hc => ?_
      limit_eq := hlimit.trans h.limit_eq
      used_le_threshold := by omega
      used_le_limit := by omega
      doubled := hthreshold ▸ h.doubled }
  rw [hnext]
  exact h.below c ((mem_collect h.tidy).mp hc).1

theorem raiseThreshold (h : Accounted low limit m) (hsize : size ≤ limit) (hfull : m.fits size = false) :
    Accounted low limit m.raiseThreshold ∧ m.heap.threshold ≤ m.raiseThreshold.heap.threshold := by
  obtain ⟨hone, hmax⟩ := h.threshold_bounds
  have hover : m.heap.threshold < m.heap.used + size := by simpa [fits] using hfull
  have hused := h.used_le_limit
  have hraised : m.raiseThreshold.heap.threshold = min (m.heap.threshold * 2) limit := by
    simp only [Memory.raiseThreshold, h.limit_eq]
  have hgrows : m.heap.threshold ≤ m.raiseThreshold.heap.threshold := by omega
  refine ⟨⟨⟨h.tidy.distinct, h.tidy.unmarked, h.tidy.used⟩, h.below, h.limit_eq,
    Nat.le_trans h.used_le_threshold hgrows, hused, ?_⟩, hgrows⟩
  obtain ⟨k, hk⟩ := h.doubled
  refine ⟨k + 1, ?_⟩
  rw [hraised, hk, Nat.pow_succ, ← Nat.mul_assoc]
  omega

theorem makeRoom (h : Accounted low limit m) (hsize : size ≤ limit) :
    Accounted low limit (m.makeRoom size) ∧ m.heap.threshold ≤ (m.makeRoom size).heap.threshold := by
  obtain ⟨-, hsame, -⟩ := frame_collect h.tidy
  unfold Memory.makeRoom
  split
  · exact ⟨h, Nat.le_refl _⟩
  · simp only
    split
    · exact ⟨h.collect, Nat.le_of_eq hsame.symm⟩
    next hfull =>
      obtain ⟨hraised, hgrows⟩ := h.collect.raiseThreshold hsize (Bool.not_eq_true _ ▸ hfull)
      exact ⟨hraised, hsame ▸ hgrows⟩

theorem grant (h : Accounted low limit m) (hsize : size ≤ limit) (hfits : m.fits size = true)
    (content : Payload) : Accounted low limit (m.grant size content).2 := by
  obtain ⟨-, hmax⟩ := h.threshold_bounds
  have hunder : m.heap.used + size ≤ m.heap.threshold := by simpa [fits] using hfits
  have hused := h.used_le_limit
  refine
    { h with
      tidy := ⟨?_, ?_, ?_⟩
      below := fun c hc => ?_
      used_le_threshold := hunder
      used_le_limit := ?_ }
  · refine List.nodup_cons.mpr ⟨fun hmem => ?_, h.tidy.distinct⟩
    obtain ⟨c, hc, haddr⟩ := List.mem_map.mp hmem
    exact absurd (h.below c hc) (by simp [haddr])
  · intro c hc
    rcases List.mem_cons.mp hc with rfl | hold
    · rfl
    · exact h.tidy.unmarked c hold
  · show m.heap.used + size = size + totalSize m.heap.chunks
    rw [h.tidy.used, Nat.add_comm]
  · rcases List.mem_cons.mp hc with rfl | hold
    · exact Nat.lt_succ_self _
    · exact Nat.lt_succ_of_lt (h.below c hold)
  · show m.heap.used + size ≤ limit
    omega

theorem malloc (h : Accounted low limit m) (size : Nat) (content : Payload) :
    Accounted low limit (m.malloc size content).2 ∧ m.heap.threshold ≤ (m.malloc size content).2.heap.threshold := by
  unfold Memory.malloc
  split
  · exact ⟨h, Nat.le_refl _⟩
  next hrefused =>
    have hsize : size ≤ limit := by
      rw [← h.limit_eq]
      omega
    obtain ⟨hroom, hgrows⟩ := h.makeRoom hsize
    simp only
    split
    next hgranted => exact ⟨hroom.grant hsize hgranted.1 content, hgrows⟩
    · exact ⟨hroom, hgrows⟩

theorem run (h : Accounted low limit m) (a : Act) :
    Accounted low limit (a.run m) ∧ m.heap.threshold ≤ (a.run m).heap.threshold := by
  cases a with
  | malloc size kind => exact h.malloc size kind.zeroed
  | collect => exact ⟨h.collect, Nat.le_of_eq (frame_collect h.tidy).2.1.symm⟩
  | flush | rootBegin | rootEnd | rootSave | rootRestore | addRoot | addTempRoot | store =>
    exact ⟨h.congr rfl, Nat.le_refl _⟩

theorem after (h : Accounted low limit m) (acts : List Act) : Accounted low limit (m.after acts) := by
  induction acts generalizing m with
  | nil => exact h
  | cons a acts ih => exact ih (h.run a).1

theorem sum_lt (h : Accounted low limit m) (hlimit : limit < 2 ^ 63) (hmem : total ∈ m.sums size) :
    total < UInt64.size := by
  simp only [sums, h.limit_eq] at hmem
  split at hmem
  · cases hmem
  next hover =>
    have hsize : size ≤ limit := Nat.not_lt.mp hover
    have hfirst := h.used_le_limit
    have hsecond := h.collect.used_le_limit
    have hthird := (h.makeRoom hsize).1.used_le_limit
    have hword : UInt64.size = 2 * 2 ^ 63 := rfl
    simp only [List.mem_cons, List.not_mem_nil, or_false, headerSize] at hmem
    omega

end Accounted

end

/-- After any operations on fresh memory, failed ones included, the counter is the total size of the
chunks and stays under threshold and limit; the threshold is the first one doubled some number of times,
cut at the limit; and no sum, doubling or subtraction leaves a machine word. -/
theorem accounts_balanced (low limit : Nat) (hlimit : limit < 2 ^ 63) (slots : Array Value)
    (acts : List Act) (m : Memory) (hm : m = after { Memory.new low limit with slots } acts) :
    m.heap.used = totalSize m.heap.chunks ∧
    m.heap.used ≤ m.heap.threshold ∧
    m.heap.limit = limit ∧
    m.heap.used ≤ m.heap.limit ∧
    1 ≤ m.heap.threshold ∧
    m.heap.threshold ≤ max limit 1 ∧
    (∃ k, m.heap.threshold = min (min (max low 1) (max limit 1) * 2 ^ k) (max limit 1)) ∧
    (∀ a : Act, m.heap.threshold ≤ (a.run m).heap.threshold) ∧
    (∀ size, ∀ total ∈ m.sums size, total < UInt64.size) ∧
    m.heap.threshold * 2 < UInt64.size ∧
    m.swept ≤ m.heap.used := by
  have h : Accounted low limit m := hm ▸ (Accounted.new low limit slots).after acts
  obtain ⟨hone, hmax⟩ := h.threshold_bounds
  have hword : UInt64.size = 2 * 2 ^ 63 := rfl
  refine ⟨h.tidy.used, h.used_le_threshold, h.limit_eq, h.limit_eq ▸ h.used_le_limit, hone, hmax, h.doubled,
    fun a => (h.run a).2, fun _ _ => h.sum_lt hlimit, by omega, ?_⟩
  have hswept := collect_add_swept h.tidy
  omega

/-- A chunk is kept by a variable and another dropped; then one request doubles the threshold, and one is
refused after it doubled the threshold again. -/
def crowding : List Act :=
  [.malloc 24 .list, .store 0 (.list (.chunk 0)), .addRoot 0, .malloc 9 .string, .flush, .malloc 16 .any,
   .malloc 100 .raw, .rootEnd]

theorem accounts_balanced_crowding : (200 : Nat) < 2 ^ 63 ∧
    ∃ m, m = after { Memory.new 30 200 with slots := #[.zero] } crowding ∧
      m.heap.used = 40 ∧ m.heap.used = totalSize m.heap.chunks ∧
      m.heap.threshold = 120 ∧ m.heap.threshold = min (30 * 2 ^ 2) 200 ∧
      ∀ total ∈ m.sums 100, total < UInt64.size := by
  refine ⟨by decide, _, rfl, ?_⟩
  obtain ⟨hused, -, -, -, -, -, -, -, hsums, -, -⟩ := accounts_balanced 30 200 (by decide) #[.zero] crowding _ rfl
  exact ⟨by cbv, hused, by cbv, by cbv, hsums 100⟩

end Blockwork.Memory
