import Mathlib.Algebra.GroupWithZero.Nat
import Mathlib.Algebra.Order.Floor.Div
import Mathlib.Data.Nat.Log
import Mathlib.GroupTheory.GroupAction.Ring
import Blockwork.Proofs.Accounting

/-! # When memory is granted
A request is measured against the threshold with what is in use, then with what a collection leaves in use, and
at last against the doubled threshold. -/

namespace Blockwork.Memory

open Heap

variable {m : Memory} {size raised : Nat} {kind : ChunkKind}

open Classical in
noncomputable def reachable (m : Memory) : List Chunk :=
  m.heap.chunks.filter fun c => m.heap.Reached m.IsRoot (.chunk c.addr)

/-- One collection, which leaves the reachable chunks, and a threshold set after it. -/
noncomputable def collected (m : Memory) (threshold : Nat) : Memory :=
  { m with
    heap :=
      { m.heap with
        chunks := m.reachable
        used := totalSize m.reachable
        threshold
        collections := m.heap.collections + 1 } }

def withChunk (m : Memory) (size : Nat) (kind : ChunkKind) : Memory :=
  { m with
    heap :=
      { m.heap with
        chunks := ⟨m.heap.next, size, kind.zeroed, false⟩ :: m.heap.chunks
        next := m.heap.next + 1
        used := m.heap.used + size }
    roots := { m.roots with temps := m.roots.temps.push (.chunk m.heap.next) } }

/-- The host has the memory of a request, and a word counts it with what is in use. -/
def HostGrants (m : Memory) (size : Nat) : Prop :=
  size ≤ hostLimit ∧ m.heap.used + size < UInt64.size

def requested (m : Memory) (size : Nat) (kind : ChunkKind) (times : Nat) : Memory :=
  (fun m => (m.malloc size kind.zeroed).2)^[times] m

theorem collect_chunks (ht : m.heap.Tidy) : m.collect.heap.chunks = m.reachable := by
  classical
  have hsub := (marking_collect ht).sweep_sublist ht
  have hnodup : m.heap.chunks.Nodup := ht.distinct.of_map _
  have hmem (c : Chunk) : c ∈ m.collect.heap.chunks ↔ c ∈ m.reachable := by
    simp [mem_collect ht, reachable]
  have hkept : m.collect.heap.chunks.Sublist m.reachable := by
    have hfilter := hsub.filter fun c => m.heap.Reached m.IsRoot (.chunk c.addr)
    rwa [List.filter_eq_self.mpr fun c hc => by simpa using ((mem_collect ht).mp hc).2] at hfilter
  have hperm : m.collect.heap.chunks.Perm m.reachable :=
    (List.perm_ext_iff_of_nodup (hnodup.sublist hsub) (hnodup.filter _)).mpr hmem
  exact hkept.eq_of_length hperm.length_eq

theorem collect_eq_collected (ht : m.heap.Tidy) : m.collect = m.collected m.heap.threshold := by
  have hframe := (marking_collect ht).frame
  have hused := (tidy_collect ht).used
  rw [collect_chunks ht] at hused
  have hchunks := collect_chunks ht
  simp only [collect, sweep] at hchunks hused ⊢
  rw [hframe] at hchunks hused ⊢
  simp only at hchunks hused ⊢
  rw [hchunks, hused, collected]

theorem raiseThreshold_collect (ht : m.heap.Tidy) :
    m.collect.raiseThreshold = m.collected (min (2 * m.heap.threshold) m.heap.limit) := by
  rw [collect_eq_collected ht, Nat.mul_comm]
  rfl

theorem reached_collected (ht : m.heap.Tidy) (hp : m.heap.Reached m.IsRoot p) :
    (m.collected raised).heap.Reached (m.collected raised).IsRoot p := by
  have hkeep {q : Pointer} {content : Payload} (hq : m.heap.Reached m.IsRoot q)
      (hread : m.heap.payload? q = some content) :
      (m.collected raised).heap.payload? q = some content := by
    have hsame := payload?_collect ht hq
    rw [collect_eq_collected ht] at hsame
    exact hsame.trans hread
  induction hp with
  | root hroot =>
    refine .root ?_
    cases hroot with
    | temp htemp => exact .temp htemp
    | named hnamed hne => exact .named hnamed hne
  | step hreached hread hrefers ih =>
    refine .step ih (hkeep hreached hread) ?_
    -- the elements of a list stand in its storage, which is reached through the list
    have hstorage {l : ListHeader} {items : Array Boxed} (hl : m.heap.payload? (.chunk _) = some (.list l))
        (hitems : m.heap.payload? l.items = some (.raw items)) :
        (m.collected raised).heap.payload? l.items = some (.raw items) :=
      hkeep (hreached.step hl (.storage fun hnull => by simp [hnull, payload?] at hitems)) hitems
    cases hrefers with
    | boxedString hne => exact .boxedString hne
    | boxedList hne => exact .boxedList hne
    | storage hne => exact .storage hne
    | stringElement hitems hi helem hne => exact .stringElement (hstorage hread hitems) hi helem hne
    | listElement hitems hi helem hne => exact .listElement (hstorage hread hitems) hi helem hne

theorem reachable_collected (ht : m.heap.Tidy) : (m.collected raised).reachable = m.reachable := by
  classical
  refine List.filter_eq_self.mpr fun c hc => ?_
  have hreached := (List.mem_filter.mp hc).2
  simpa using reached_collected ht (by simpa using hreached)

theorem tidy_collected (ht : m.heap.Tidy) : (m.collected raised).heap.Tidy := by
  have hkept := tidy_collect ht
  rw [collect_eq_collected ht] at hkept
  exact ⟨hkept.distinct, hkept.unmarked, hkept.used⟩

theorem malloc_over (hover : m.heap.limit < size) :
    m.malloc size kind.zeroed = (.error ⟨size, m.heap.used, m.heap.limit⟩, m) :=
  if_pos (Or.inl hover)

theorem makeRoom_eq (ht : m.heap.Tidy) (size : Nat) : m.makeRoom size =
      if m.heap.used + size ≤ m.heap.threshold then m
      else if totalSize m.reachable + size ≤ m.heap.threshold then m.collected m.heap.threshold
      else m.collected (min (2 * m.heap.threshold) m.heap.limit) := by
  simp only [makeRoom, fits, decide_eq_true_eq]
  rw [raiseThreshold_collect ht, collect_eq_collected ht]
  rfl

theorem malloc_eq (hsize : size ≤ m.heap.limit) (hhost : m.HostGrants size) : m.malloc size kind.zeroed =
      if (m.makeRoom size).heap.used + size ≤ (m.makeRoom size).heap.threshold then
        (.ok (.chunk (m.makeRoom size).heap.next), (m.makeRoom size).withChunk size kind)
      else
        (.error ⟨size, (m.makeRoom size).heap.used, (m.makeRoom size).heap.limit⟩, m.makeRoom size) := by
  have hword : ¬(size > m.heap.limit ∨ m.heap.used + size ≥ UInt64.size) :=
    not_or.mpr ⟨Nat.not_lt.mpr hsize, Nat.not_le.mpr hhost.2⟩
  simp only [malloc, if_neg hword, fits, decide_eq_true_eq, hhost.1, and_true]
  rfl

theorem malloc_fits (hsize : size ≤ m.heap.limit) (hhost : m.HostGrants size)
    (hfits : m.heap.used + size ≤ m.heap.threshold) :
    m.malloc size kind.zeroed = (.ok (.chunk m.heap.next), m.withChunk size kind) := by
  have hroom : m.makeRoom size = m := if_pos (decide_eq_true hfits)
  rw [malloc_eq hsize hhost, hroom, if_pos hfits]

theorem malloc_collects (ht : m.heap.Tidy) (hsize : size ≤ m.heap.limit)
    (hhost : m.HostGrants size) (hfull : m.heap.threshold < m.heap.used + size)
    (hroom : totalSize m.reachable + size ≤ m.heap.threshold) : m.malloc size kind.zeroed =
      (.ok (.chunk m.heap.next), (m.collected m.heap.threshold).withChunk size kind) := by
  rw [malloc_eq hsize hhost, makeRoom_eq ht, if_neg (Nat.not_le.mpr hfull), if_pos hroom]
  exact if_pos hroom

theorem malloc_raises (kind : ChunkKind) (ht : m.heap.Tidy) (hsize : size ≤ m.heap.limit)
    (hhost : m.HostGrants size) (hfull : m.heap.threshold < m.heap.used + size)
    (hcrowded : m.heap.threshold < totalSize m.reachable + size)
    (hraised : raised = min (2 * m.heap.threshold) m.heap.limit) : m.malloc size kind.zeroed =
      if totalSize m.reachable + size ≤ raised then
        (.ok (.chunk m.heap.next), (m.collected raised).withChunk size kind)
      else (.error ⟨size, totalSize m.reachable, m.heap.limit⟩, m.collected raised) := by
  rw [malloc_eq hsize hhost, makeRoom_eq ht, if_neg (Nat.not_le.mpr hfull), if_neg (Nat.not_le.mpr hcrowded), hraised]
  rfl

theorem HostGrants.collected (ht : m.heap.Tidy) (hhost : m.HostGrants size) :
    (m.collected raised).HostGrants size := by
  have hused := collect_add_swept ht
  rw [collect_eq_collected ht] at hused
  have hword := hhost.2
  refine ⟨hhost.1, ?_⟩
  change totalSize m.reachable + size < UInt64.size
  change totalSize m.reachable + m.swept = m.heap.used at hused
  omega

theorem granted_after (kind : ChunkKind) (ht : m.heap.Tidy) (hhost : m.HostGrants size)
    (hroom : totalSize m.reachable + size ≤ m.heap.limit) (hk : m.heap.limit ≤ m.heap.threshold * 2 ^ k) :
    ∃ times ≤ k, (∀ i < times, ((m.requested size kind i).malloc size kind.zeroed).1.isOk = false) ∧
        ((m.requested size kind times).malloc size kind.zeroed).1.isOk = true := by
  have hsize : size ≤ m.heap.limit := by omega
  induction k generalizing m with
  | zero =>
    have hreach : totalSize m.reachable + size ≤ m.heap.threshold := by omega
    refine ⟨0, Nat.le_refl 0, fun i hi => absurd hi (Nat.not_lt_zero i), ?_⟩
    change (m.malloc size kind.zeroed).1.isOk = true
    by_cases hfits : m.heap.used + size ≤ m.heap.threshold
    · rw [malloc_fits hsize hhost hfits]
      rfl
    · rw [malloc_collects ht hsize hhost (Nat.not_le.mp hfits) hreach]
      rfl
  | succ k ih =>
    cases hanswer : (m.malloc size kind.zeroed).1.isOk with
    | true => exact ⟨0, Nat.zero_le _, fun i hi => absurd hi (Nat.not_lt_zero i), hanswer⟩
    | false =>
      have hfull : m.heap.threshold < m.heap.used + size := by
        refine Nat.not_le.mp fun hfits => ?_
        rw [malloc_fits hsize hhost hfits] at hanswer
        cases hanswer
      have hcrowded : m.heap.threshold < totalSize m.reachable + size := by
        refine Nat.not_le.mp fun hreach => ?_
        rw [malloc_collects ht hsize hhost hfull hreach] at hanswer
        cases hanswer
      have hrefused := malloc_raises kind ht hsize hhost hfull hcrowded rfl
      split at hrefused
      · rw [hrefused] at hanswer
        cases hanswer
      · have hdoubled : m.heap.limit ≤ min (2 * m.heap.threshold) m.heap.limit * 2 ^ k := by
          rcases Nat.le_total (2 * m.heap.threshold) m.heap.limit with hle | hle
          · rw [Nat.min_eq_left hle, Nat.mul_comm 2, Nat.mul_assoc, ← Nat.pow_succ']
            exact hk
          · rw [Nat.min_eq_right hle]
            exact Nat.le_mul_of_pos_right _ (Nat.two_pow_pos k)
        obtain ⟨times, hle, hbefore, hafter⟩ :=
          ih (m := m.collected (min (2 * m.heap.threshold) m.heap.limit)) (tidy_collected ht)
            (hhost.collected ht) (by rw [reachable_collected ht]; exact hroom) hdoubled hsize
        have hnext (i : Nat) : m.requested size kind (i + 1) =
            (m.collected (min (2 * m.heap.threshold) m.heap.limit)).requested size kind i := by
          rw [requested, Function.iterate_succ_apply, hrefused]
          rfl
        refine ⟨times + 1, Nat.succ_le_succ hle, fun i hi => ?_, (hnext times) ▸ hafter⟩
        cases i with
        | zero => exact hanswer
        | succ i => exact (hnext i) ▸ hbefore i (Nat.lt_of_succ_lt_succ hi)

/-- Memory is granted under the threshold without a collection, else after exactly one if what the
roots reach leaves room, and else exactly when it fits under the threshold doubled up to the limit;
what is over the limit is refused at once. What the limit has room for is granted after at most as
many refusals as doublings lead from the threshold to the limit. -/
theorem allocation_policy (m : Memory) (size : Nat) (kind : ChunkKind) (ht : m.heap.Tidy)
    (hpos : 0 < m.heap.threshold) (hhost : m.HostGrants size) :
    (m.heap.limit < size → m.malloc size kind.zeroed = (.error ⟨size, m.heap.used, m.heap.limit⟩, m)) ∧
    (size ≤ m.heap.limit → m.heap.used + size ≤ m.heap.threshold →
      m.malloc size kind.zeroed = (.ok (.chunk m.heap.next), m.withChunk size kind)) ∧
    (size ≤ m.heap.limit → m.heap.threshold < m.heap.used + size → totalSize m.reachable + size ≤ m.heap.threshold →
      m.malloc size kind.zeroed = (.ok (.chunk m.heap.next), (m.collected m.heap.threshold).withChunk size kind)) ∧
    (size ≤ m.heap.limit → m.heap.threshold < m.heap.used + size → m.heap.threshold < totalSize m.reachable + size →
      ∀ raised, raised = min (2 * m.heap.threshold) m.heap.limit →
      m.malloc size kind.zeroed =
        if totalSize m.reachable + size ≤ raised then
          (.ok (.chunk m.heap.next), (m.collected raised).withChunk size kind)
        else (.error ⟨size, totalSize m.reachable, m.heap.limit⟩, m.collected raised)) ∧
    (totalSize m.reachable + size ≤ m.heap.limit → ∃ times ≤ Nat.clog 2 (m.heap.limit ⌈/⌉ m.heap.threshold),
        (∀ i < times, ((m.requested size kind i).malloc size kind.zeroed).1.isOk = false) ∧
          ((m.requested size kind times).malloc size kind.zeroed).1.isOk = true) := by
  refine ⟨malloc_over, fun hsize => malloc_fits hsize hhost, fun hsize => malloc_collects ht hsize hhost,
    fun hsize hfull hcrowded _ => malloc_raises kind ht hsize hhost hfull hcrowded,
    fun hroom => ?_⟩
  refine granted_after kind ht hhost hroom ?_
  calc m.heap.limit ≤ m.heap.threshold * (m.heap.limit ⌈/⌉ m.heap.threshold) :=
        le_smul_ceilDiv hpos
    _ ≤ m.heap.threshold * 2 ^ Nat.clog 2 (m.heap.limit ⌈/⌉ m.heap.threshold) :=
        Nat.mul_le_mul_left _ (Nat.le_pow_clog Nat.one_lt_two _)

def crowdedRing : Memory :=
  { ringMemory with heap := { ringMemory.heap with threshold := 160 } }

/-- The ring keeps 82 bytes in use. A request for 100 more raises the threshold once; one for 1500 is
refused and at last granted. -/
theorem allocation_policy_ring : totalSize crowdedRing.reachable = 82 ∧
    crowdedRing.malloc 100 ChunkKind.string.zeroed =
        (.ok (.chunk 6), (crowdedRing.collected 320).withChunk 100 .string) ∧
      ∃ times ≤ Nat.clog 2 (2000 ⌈/⌉ 160), (∀ i < times,
          ((crowdedRing.requested 1500 .raw i).malloc 1500 ChunkKind.raw.zeroed).1.isOk = false) ∧
        ((crowdedRing.requested 1500 .raw times).malloc 1500 ChunkKind.raw.zeroed).1.isOk =
          true := by
  have ht : crowdedRing.heap.Tidy :=
    { distinct := by decide
      unmarked := by decide
      used := by decide }
  have hkept : totalSize crowdedRing.reachable = 82 := by
    rw [← collect_chunks ht]
    cbv
  obtain ⟨-, -, -, hraises, -⟩ := allocation_policy crowdedRing 100 .string ht (by decide) ⟨by decide, by decide⟩
  obtain ⟨-, -, -, -, hagain⟩ := allocation_policy crowdedRing 1500 .raw ht (by decide) ⟨by decide, by decide⟩
  refine ⟨hkept, ?_, hagain (by rw [hkept]; decide)⟩
  rw [hraises (by decide) (by decide) (by rw [hkept]; decide) 320 rfl, hkept]
  rfl

end Blockwork.Memory
