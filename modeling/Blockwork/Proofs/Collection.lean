import Blockwork.Memory.Collector

/-! # What a collection keeps
Marking is a worklist: what is marked is reached, and what a marked chunk refers to is marked or
still on the list, so the empty list leaves exactly the reached chunks marked. -/

namespace Blockwork

open Chunk

variable {c : Chunk} {m : Memory}

namespace Heap

variable {v : Boxed}

/-! ### References -/

/-- Pointers that can be read from a payload: that of a boxed value, the backing storage of a list,
and those of its elements. Null is no reference. -/
inductive Refers (h : Heap) : Payload → Pointer → Prop where
  | boxedString : p ≠ .null → h.Refers (.any (.string p)) p
  | boxedList : p ≠ .null → h.Refers (.any (.list p)) p
  | storage : l.items ≠ .null → h.Refers (.list l) l.items
  | stringElement :
      h.payload? l.items = some (.raw items) → i < l.len → items[i]? = some (.string p) →
      p ≠ .null → h.Refers (.list l) p
  | listElement :
      h.payload? l.items = some (.raw items) → i < l.len → items[i]? = some (.list p) →
      p ≠ .null → h.Refers (.list l) p

/-- What roots lead to, through any number of chunks. -/
inductive Reached (h : Heap) (isRoot : Pointer → Prop) : Pointer → Prop where
  | root : isRoot p → h.Reached isRoot p
  | step : h.Reached isRoot (.chunk a) →
      h.payload? (.chunk a) = some content → h.Refers content p → h.Reached isRoot p

theorem mem_pointers_string : p ∈ (Boxed.string q).pointers ↔ p ≠ .null ∧ q = p := by
  by_cases hq : q = .null
  · simp only [Boxed.pointers, hq, if_true, List.not_mem_nil, false_iff, not_and]
    exact fun hp h => hp h.symm
  · simp only [Boxed.pointers, hq, if_false, List.mem_singleton]
    exact ⟨fun h => ⟨h ▸ hq, h.symm⟩, fun h => h.2.symm⟩

theorem mem_pointers_list : p ∈ (Boxed.list q).pointers ↔ p ≠ .null ∧ q = p :=
  mem_pointers_string

theorem mem_pointers : p ∈ v.pointers ↔ p ≠ .null ∧ (v = .string p ∨ v = .list p) := by
  cases v with
  | string => simp [mem_pointers_string]
  | list => simp [mem_pointers_list]
  | nothing | integer | float | bool | color => simp [Boxed.pointers]

theorem mem_take_toList {xs : Array Boxed} : v ∈ xs.toList.take n ↔ ∃ i, i < n ∧ xs[i]? = some v := by
  constructor
  · intro hv
    obtain ⟨i, hi⟩ := List.mem_iff_getElem?.mp hv
    rw [List.getElem?_take] at hi
    by_cases hn : i < n
    · exact ⟨i, hn, by simpa [hn] using hi⟩
    · simp [hn] at hi
  · rintro ⟨i, hn, hi⟩
    exact List.mem_iff_getElem?.mpr ⟨i, by simp [hn, hi]⟩

theorem mem_elements {h : Heap} : v ∈ h.elements l ↔ ∃ items i, h.payload? l.items = some (.raw items) ∧ i < l.len ∧
      items[i]? = some v := by
  simp only [elements, mem_take_toList, storage]
  constructor
  · rintro ⟨i, hi, hv⟩
    split at hv
    · rename_i items hp
      exact ⟨items, i, hp, hi, hv⟩
    · simp at hv
  · rintro ⟨items, i, hp, hi, hv⟩
    exact ⟨i, hi, by rw [hp]; exact hv⟩

theorem refers_element {h : Heap} (hl : h.payload? l.items = some (.raw items)) (hi : i < l.len)
    (hv : items[i]? = some v) (hp : p ∈ v.pointers) : h.Refers (.list l) p := by
  obtain ⟨hne, rfl | rfl⟩ := mem_pointers.mp hp
  · exact .stringElement hl hi hv hne
  · exact .listElement hl hi hv hne

theorem refers_list {h : Heap} (hr : h.Refers (.list l) p) :
    p = l.items ∨ ∃ items i v, h.payload? l.items = some (.raw items) ∧ i < l.len ∧
      items[i]? = some v ∧ p ∈ v.pointers := by
  cases hr with
  | storage hne => exact Or.inl rfl
  | stringElement hl hi hv hne =>
    exact Or.inr ⟨_, _, _, hl, hi, hv, mem_pointers.mpr ⟨hne, Or.inl rfl⟩⟩
  | listElement hl hi hv hne =>
    exact Or.inr ⟨_, _, _, hl, hi, hv, mem_pointers.mpr ⟨hne, Or.inr rfl⟩⟩

theorem refers_any {h : Heap} : h.Refers (.any v) p ↔ p ∈ v.pointers := by
  rw [mem_pointers]
  constructor
  · intro hr
    cases hr with
    | boxedString hne => exact ⟨hne, Or.inl rfl⟩
    | boxedList hne => exact ⟨hne, Or.inr rfl⟩
  · rintro ⟨hne, rfl | rfl⟩
    · exact .boxedString hne
    · exact .boxedList hne

theorem mem_children {h : Heap} : p ∈ h.children c ↔ h.Refers c.payload p := by
  unfold children
  cases c.payload with
  | raw | string => exact ⟨fun hp => by simp at hp, fun hp => by cases hp⟩
  | any => exact refers_any.symm
  | list l =>
    by_cases hl : l.items = .null
    · simp only [hl, if_true, List.not_mem_nil, false_iff]
      intro hp
      cases hp with
      | storage hne => exact hne hl
      | stringElement hitems | listElement hitems => rw [hl] at hitems; cases hitems
    · simp only [hl, if_false, List.mem_cons, List.mem_flatMap, mem_elements]
      constructor
      · rintro (rfl | ⟨v, ⟨items, i, hitems, hi, hv⟩, hp⟩)
        · exact .storage hl
        · exact refers_element hitems hi hv hp
      · intro hp
        rcases refers_list hp with hp | ⟨items, i, v, hitems, hi, hv, hp⟩
        · exact Or.inl hp
        · exact Or.inr ⟨v, ⟨items, i, hitems, hi, hv⟩, hp⟩

/-! ### Marks are not content -/

theorem markAt_addr (a : Nat) (c : Chunk) : (c.markAt a).addr = c.addr := by
  unfold markAt
  split <;> rfl

theorem markAt_payload (a : Nat) (c : Chunk) : (c.markAt a).payload = c.payload := by
  unfold markAt
  split <;> rfl

theorem markAt_unmark (a : Nat) (c : Chunk) : (c.markAt a).unmark = c.unmark := by
  unfold markAt
  split <;> rfl

theorem markAt_marked (a : Nat) (c : Chunk) : (c.markAt a).marked = (decide (c.addr = a) || c.marked) := by
  unfold markAt
  split <;> simp_all

theorem find?_unmark (cs : List Chunk) (a : Nat) :
    (cs.map unmark).find? (·.addr == a) = (cs.find? (·.addr == a)).map unmark := by
  rw [List.find?_map]
  rfl

theorem payload?_congr {h h' : Heap} (hs : h.chunks.map unmark = h'.chunks.map unmark)
    (p : Pointer) : h.payload? p = h'.payload? p := by
  cases p with
  | null | static => rfl
  | chunk a =>
    have hfind : (h.find? a).map unmark = (h'.find? a).map unmark := by
      unfold find?
      rw [← find?_unmark, ← find?_unmark, hs]
    have hpayload := congrArg (Option.map payload) hfind
    rw [Option.map_map, Option.map_map] at hpayload
    exact hpayload

theorem Refers.mono {h h' : Heap} (hs : ∀ l items, content = .list l → h.payload? l.items = some (.raw items) →
    h'.payload? l.items = some (.raw items)) (hr : h.Refers content p) : h'.Refers content p := by
  cases hr with
  | boxedString hp => exact .boxedString hp
  | boxedList hp => exact .boxedList hp
  | storage hne => exact .storage hne
  | stringElement hitems hi hv hp => exact .stringElement (hs _ _ rfl hitems) hi hv hp
  | listElement hitems hi hv hp => exact .listElement (hs _ _ rfl hitems) hi hv hp

theorem find?_of_mem {cs : List Chunk} (hd : (cs.map addr).Nodup) (hc : c ∈ cs) :
    cs.find? (·.addr == c.addr) = some c := by
  induction cs with
  | nil => simp at hc
  | cons d ds ih =>
    rw [List.map_cons, List.nodup_cons] at hd
    rcases List.mem_cons.mp hc with rfl | hc
    · simp
    · have hne : d.addr ≠ c.addr := fun he => hd.1 (he ▸ List.mem_map_of_mem hc)
      rw [List.find?_cons_of_neg (by simpa using hne)]
      exact ih hd.2 hc

theorem payload?_chunk {h : Heap} (hp : h.payload? (.chunk a) = some content) :
    ∃ c ∈ h.chunks, c.addr = a ∧ c.payload = content := by
  obtain ⟨c, hfind, hpayload⟩ := Option.map_eq_some_iff.mp hp
  have haddr := List.find?_some hfind
  exact ⟨c, List.mem_of_find?_eq_some hfind, by simpa using haddr, hpayload⟩

theorem payload?_of_mem {h : Heap} (hd : (h.chunks.map addr).Nodup) (hc : c ∈ h.chunks) :
    h.payload? (.chunk c.addr) = some c.payload := by
  simp only [payload?, find?, find?_of_mem hd hc, Option.map_some]

/-! ### Marking -/

def Covered (h : Heap) (work : List Pointer) (p : Pointer) : Prop :=
  p ∈ work ∨ ∀ c ∈ h.chunks, p = .chunk c.addr → c.marked = true

structure Marking (h₀ : Heap) (isRoot : Pointer → Prop) (h : Heap) (work : List Pointer) :
    Prop where
  frame : h = { h₀ with chunks := h.chunks }
  chunks : h.chunks.map unmark = h₀.chunks.map unmark
  distinct : (h.chunks.map addr).Nodup
  reached : ∀ c ∈ h.chunks, c.marked = true → h₀.Reached isRoot (.chunk c.addr)
  pending : ∀ p ∈ work, h₀.Reached isRoot p
  roots : ∀ p, isRoot p → h.Covered work p
  closed : ∀ c ∈ h.chunks, c.marked = true → ∀ p, h₀.Refers c.payload p → h.Covered work p

theorem Marking.payload? (hm : Marking h₀ isRoot h work) (p : Pointer) : h.payload? p = h₀.payload? p :=
  payload?_congr hm.chunks p

theorem Marking.start {roots : List Pointer} (hd : (h.chunks.map addr).Nodup)
    (hu : ∀ c ∈ h.chunks, c.marked = false) : Marking h (· ∈ roots) h roots where
  frame := rfl
  chunks := rfl
  distinct := hd
  reached := fun c hc hmark => by simp [hu c hc] at hmark
  pending := fun p hp => .root hp
  roots := fun p hp => Or.inl hp
  closed := fun c hc hmark => by simp [hu c hc] at hmark

theorem covered_of_unmarked?_none {h : Heap} (hd : (h.chunks.map addr).Nodup) (hp : h.unmarked? p = none)
    (c : Chunk) (hc : c ∈ h.chunks) (he : p = .chunk c.addr) : c.marked = true := by
  subst he
  have hfind : h.find? c.addr = some c := find?_of_mem hd hc
  simp only [unmarked?, hfind, Option.filter_some] at hp
  cases hmark : c.marked with
  | true => rfl
  | false => simp [hmark] at hp

theorem covered_mark {h : Heap} (hp : h.Covered work p) : (h.mark a).Covered work p := by
  rcases hp with hp | hp
  · exact Or.inl hp
  · refine Or.inr fun c hc he => ?_
    obtain ⟨d, hd, rfl⟩ := List.mem_map.mp hc
    rw [markAt_addr] at he
    rw [markAt_marked, hp d hd he, Bool.or_true]

theorem covered_drop {h : Heap} (hq : ∀ c ∈ h.chunks, q = .chunk c.addr → c.marked = true)
    (hp : h.Covered (q :: work) p) : h.Covered (more ++ work) p := by
  rcases hp with hp | hp
  · rcases List.mem_cons.mp hp with rfl | hp
    · exact Or.inr hq
    · exact Or.inl (List.mem_append_right more hp)
  · exact Or.inr hp

theorem Marking.reach (hm : Marking h₀ isRoot h (p :: work)) :
    Marking h₀ isRoot (h.reach p).1 ((h.reach p).2 ++ work) := by
  cases hc : h.unmarked? p with
  | none =>
    have hp := covered_of_unmarked?_none hm.distinct hc
    simp only [Heap.reach, hc]
    exact
      { hm with
        pending := fun q hq => hm.pending q (List.mem_cons_of_mem p hq)
        roots := fun q hq => covered_drop hp (hm.roots q hq)
        closed := fun c hmem hmark q hq => covered_drop hp (hm.closed c hmem hmark q hq) }
  | some c =>
    obtain ⟨hmem, rfl, hmark⟩ := mem_of_unmarked? hc
    have hp : ∀ d ∈ (h.mark c.addr).chunks, Pointer.chunk c.addr = .chunk d.addr → d.marked = true := by
      intro d hd he
      obtain ⟨e, -, rfl⟩ := List.mem_map.mp hd
      rw [markAt_addr, Pointer.chunk.injEq] at he
      simp [markAt_marked, he]
    have hread := hm.pending _ List.mem_cons_self
    have hcontent : h₀.payload? (.chunk c.addr) = some c.payload := by
      rw [← hm.payload?]
      exact payload?_of_mem hm.distinct hmem
    simp only [Heap.reach, hc]
    refine
      { frame := by rw [hm.frame]; rfl
        chunks := ?_
        distinct := ?_
        reached := ?_
        pending := ?_
        roots := fun q hq => covered_drop hp (covered_mark (hm.roots q hq))
        closed := ?_ }
    · rw [← hm.chunks]
      simp only [mark, List.map_map]
      exact List.map_congr_left fun d _ => markAt_unmark c.addr d
    · have haddr : (h.mark c.addr).chunks.map addr = h.chunks.map addr := by
        simp only [mark, List.map_map]
        exact List.map_congr_left fun d _ => markAt_addr c.addr d
      rw [haddr]
      exact hm.distinct
    · intro d hd hdm
      obtain ⟨e, he, rfl⟩ := List.mem_map.mp hd
      rw [markAt_addr]
      by_cases ha : e.addr = c.addr
      · rw [ha]
        exact hread
      · exact hm.reached e he (by simpa [markAt_marked, ha] using hdm)
    · intro q hq
      rcases List.mem_append.mp hq with hq | hq
      · exact .step hread hcontent ((mem_children.mp hq).mono fun _ _ _ h => hm.payload? _ ▸ h)
      · exact hm.pending q (List.mem_cons_of_mem _ hq)
    · intro d hd hdm q hq
      obtain ⟨e, he, rfl⟩ := List.mem_map.mp hd
      rw [markAt_payload] at hq
      by_cases ha : e.addr = c.addr
      · -- the chunk that was just marked: what it refers to is on the list now
        have hec : e = c := by
          have h₁ := find?_of_mem hm.distinct he
          rw [ha, find?_of_mem hm.distinct hmem] at h₁
          exact (Option.some.inj h₁).symm
        subst hec
        exact Or.inl (List.mem_append_left work (mem_children.mpr (hq.mono fun _ _ _ h => hm.payload? _ ▸ h)))
      · have hem : e.marked = true := by simpa [markAt_marked, ha] using hdm
        exact covered_drop hp (covered_mark (hm.closed e he hem q hq))

theorem Marking.markFrom (h : Heap) (work : List Pointer) (hm : Marking h₀ isRoot h work) :
    Marking h₀ isRoot (h.markFrom work) [] := by
  induction h, work using Heap.markFrom.induct with
  | case1 => simpa only [Heap.markFrom] using hm
  | case2 h p work ih =>
    rw [Heap.markFrom]
    exact ih hm.reach

theorem Marking.marked_iff (hm : Marking h₀ isRoot h []) (hc : c ∈ h.chunks) :
    c.marked = true ↔ h₀.Reached isRoot (.chunk c.addr) := by
  have covered : ∀ {p}, h.Covered [] p → ∀ d ∈ h.chunks, p = .chunk d.addr → d.marked = true :=
    fun hp => hp.resolve_left List.not_mem_nil
  have complete : ∀ {p}, h₀.Reached isRoot p → ∀ d ∈ h.chunks, p = .chunk d.addr → d.marked = true := by
    intro p hp
    induction hp with
    | root hroot => exact covered (hm.roots _ hroot)
    | step _ hcontent hrefers ih =>
      rw [← hm.payload?] at hcontent
      obtain ⟨e, he, rfl, rfl⟩ := payload?_chunk hcontent
      exact covered (hm.closed e he (ih e he rfl) _ hrefers)
  exact ⟨hm.reached c hc, fun hr => complete hr c hc rfl⟩

inductive Marks : Nat → Heap → List Pointer → Heap → Prop where
  | done : Marks 0 h [] h
  | round :
      Marks n (h.reach p).1 ((h.reach p).2 ++ work) h' → Marks (n + 1) h (p :: work) h'

theorem marks_markFrom (h : Heap) (work : List Pointer) : ∃ rounds, Marks rounds h work (h.markFrom work) := by
  induction h, work using Heap.markFrom.induct with
  | case1 =>
    rw [Heap.markFrom]
    exact ⟨0, .done⟩
  | case2 h p work ih =>
    obtain ⟨n, hn⟩ := ih
    rw [Heap.markFrom]
    exact ⟨n + 1, .round hn⟩

/-! ### Sweeping -/

/-- Between two collections: no two chunks share an address, no chunk is marked, and the chunks
account for all memory in use. -/
structure Tidy (h : Heap) : Prop where
  distinct : (h.chunks.map addr).Nodup
  unmarked : ∀ c ∈ h.chunks, c.marked = false
  used : h.used = totalSize h.chunks

theorem unmark_of_unmarked (hc : c.marked = false) : c.unmark = c := by
  obtain ⟨a, n, p, b⟩ := c
  subst hc
  rfl

theorem map_unmark_of_unmarked {cs : List Chunk} (hu : ∀ c ∈ cs, c.marked = false) : cs.map unmark = cs := by
  rw [List.map_congr_left fun c hc => unmark_of_unmarked (hu c hc), List.map_id']

theorem totalSize_map_unmark (cs : List Chunk) : totalSize (cs.map unmark) = totalSize cs := by
  induction cs with
  | nil => rfl
  | cons c cs ih =>
    simp only [totalSize, List.map_cons, List.foldr_cons] at ih ⊢
    rw [ih]
    rfl

theorem totalSize_filter (q : Chunk → Bool) (cs : List Chunk) :
    totalSize (cs.filter q) + totalSize (cs.filter fun c => !q c) = totalSize cs := by
  induction cs with
  | nil => rfl
  | cons c cs ih =>
    simp only [totalSize] at ih ⊢
    cases hq : q c <;> simp [hq] <;> omega

section Sweep

theorem Marking.map_unmark (hm : Marking h₀ isRoot h []) (ht : h₀.Tidy) : h.chunks.map unmark = h₀.chunks := by
  rw [hm.chunks, map_unmark_of_unmarked ht.unmarked]

theorem Marking.used (hm : Marking h₀ isRoot h []) (ht : h₀.Tidy) :
    h.used = h₀.used ∧ totalSize h.chunks = h₀.used := by
  refine ⟨?_, ?_⟩
  · rw [hm.frame]
  · rw [ht.used, ← hm.map_unmark ht, totalSize_map_unmark]

theorem Marking.mem_sweep (hm : Marking h₀ isRoot h []) (ht : h₀.Tidy) :
    c ∈ h.sweep.chunks ↔ c ∈ h₀.chunks ∧ h₀.Reached isRoot (.chunk c.addr) := by
  simp only [sweep, List.mem_map, List.mem_filter]
  constructor
  · rintro ⟨d, ⟨hd, hmark⟩, rfl⟩
    refine ⟨?_, (hm.marked_iff hd).mp hmark⟩
    rw [← hm.map_unmark ht]
    exact List.mem_map_of_mem hd
  · rintro ⟨hc, hr⟩
    rw [← hm.map_unmark ht] at hc
    obtain ⟨d, hd, rfl⟩ := List.mem_map.mp hc
    exact ⟨d, ⟨hd, (hm.marked_iff hd).mpr hr⟩, rfl⟩

theorem Marking.sweep_sublist (hm : Marking h₀ isRoot h []) (ht : h₀.Tidy) : h.sweep.chunks.Sublist h₀.chunks := by
  rw [← hm.map_unmark ht]
  exact List.filter_sublist.map unmark

theorem Marking.dropped (hm : Marking h₀ isRoot h []) (ht : h₀.Tidy) :
    h₀.chunks.filter (fun c => c ∉ h.sweep.chunks) = (h.chunks.filter fun c => !c.marked).map unmark := by
  rw [← hm.map_unmark ht, List.filter_map]
  congr 1
  refine List.filter_congr fun d hd => ?_
  have hold : d.unmark ∈ h₀.chunks := by
    rw [← hm.map_unmark ht]
    exact List.mem_map_of_mem hd
  have hkept : d.unmark ∈ h.sweep.chunks ↔ d.marked = true := by
    rw [hm.mem_sweep ht, hm.marked_iff hd]
    exact ⟨fun hc => hc.2, fun hr => ⟨hold, hr⟩⟩
  simp only [Function.comp_apply, hkept]
  cases d.marked <;> rfl

theorem Marking.sweep_used (hm : Marking h₀ isRoot h []) (ht : h₀.Tidy) :
    h.sweep.used + totalSize (h₀.chunks.filter fun c => c ∉ h.sweep.chunks) = h₀.used := by
  have hsplit := totalSize_filter (fun c => c.marked) h.chunks
  obtain ⟨hused, hall⟩ := hm.used ht
  rw [hm.dropped ht, totalSize_map_unmark]
  simp only [sweep]
  omega

theorem Marking.sweep_tidy (hm : Marking h₀ isRoot h []) (ht : h₀.Tidy) : h.sweep.Tidy where
  distinct := ht.distinct.sublist ((hm.sweep_sublist ht).map addr)
  unmarked := fun c hc => ht.unmarked c ((hm.mem_sweep ht).mp hc).1
  used := by
    have hsplit := totalSize_filter (fun c => c.marked) h.chunks
    obtain ⟨hused, hall⟩ := hm.used ht
    simp only [sweep, totalSize_map_unmark]
    omega

end Sweep

end Heap

namespace Memory

open Heap

/-! ### A collection -/

/-- The roots: temporaries, and what the named variables hold, null apart. -/
inductive IsRoot (m : Memory) : Pointer → Prop where
  | temp : p ∈ m.roots.temps → m.IsRoot p
  | named : i ∈ m.roots.named → (m.slot i).pointer ≠ .null →
      m.IsRoot (m.slot i).pointer

theorem mem_rootPointers : p ∈ m.rootPointers ↔ m.IsRoot p := by
  simp only [rootPointers, List.mem_append, List.mem_reverse, Array.mem_toList_iff, List.mem_filter,
    List.mem_map, decide_eq_true_eq]
  constructor
  · rintro (hp | ⟨⟨i, hi, rfl⟩, hne⟩)
    · exact .temp hp
    · exact .named hi hne
  · intro hp
    cases hp with
    | temp hp => exact Or.inl hp
    | named hi hne => exact Or.inr ⟨⟨_, hi, rfl⟩, hne⟩

theorem marking_collect (ht : m.heap.Tidy) : Marking m.heap m.IsRoot (m.heap.markFrom m.rootPointers) [] := by
  have hroots : (· ∈ m.rootPointers) = m.IsRoot := funext fun p => propext mem_rootPointers
  rw [← hroots]
  exact (Marking.start ht.distinct ht.unmarked).markFrom

theorem tidy_collect (ht : m.heap.Tidy) : m.collect.heap.Tidy :=
  (marking_collect ht).sweep_tidy ht

theorem mem_collect (ht : m.heap.Tidy) : c ∈ m.collect.heap.chunks ↔
      c ∈ m.heap.chunks ∧ m.heap.Reached m.IsRoot (.chunk c.addr) :=
  (marking_collect ht).mem_sweep ht

theorem payload?_of_collect (ht : m.heap.Tidy) (hp : m.collect.heap.payload? p = some content) :
    m.heap.payload? p = some content := by
  cases p with
  | null => simp [payload?] at hp
  | static => exact hp
  | chunk =>
    obtain ⟨c, hc, rfl, rfl⟩ := payload?_chunk hp
    exact payload?_of_mem ht.distinct ((mem_collect ht).mp hc).1

theorem payload?_collect (ht : m.heap.Tidy) (hp : m.heap.Reached m.IsRoot p) :
    m.collect.heap.payload? p = m.heap.payload? p := by
  cases hold : m.heap.payload? p with
  | none =>
    cases hnew : m.collect.heap.payload? p with
    | none => rfl
    | some => rw [payload?_of_collect ht hnew] at hold; cases hold
  | some =>
    cases p with
    | null => simp [payload?] at hold
    | static => exact hold
    | chunk =>
      obtain ⟨c, hc, rfl, rfl⟩ := payload?_chunk hold
      exact payload?_of_mem (tidy_collect ht).distinct ((mem_collect ht).mpr ⟨hc, hp⟩)

end Memory

def Heap.Live (h : Heap) (p : Pointer) : Prop :=
  p = .null ∨ (h.payload? p).isSome = true

instance (h : Heap) (p : Pointer) : Decidable (h.Live p) :=
  inferInstanceAs (Decidable (_ ∨ _))

theorem Heap.live_congr {h h' : Heap} (hp : h'.payload? p = h.payload? p) : h'.Live p ↔ h.Live p := by
  unfold Live
  rw [hp]

namespace Memory

/-- No pointer dangles: those of the named roots, the temporaries and those stored in chunks. -/
structure Closed (m : Memory) : Prop where
  named : ∀ i ∈ m.roots.named, m.heap.Live (m.slot i).pointer
  temps : ∀ p ∈ m.roots.temps, m.heap.Live p
  stored : ∀ c ∈ m.heap.chunks, ∀ p, m.heap.Refers c.payload p → m.heap.Live p

theorem live_collect (ht : m.heap.Tidy) (hr : m.heap.Reached m.IsRoot p) (hp : m.heap.Live p) :
    m.collect.heap.Live p :=
  (Heap.live_congr (payload?_collect ht hr)).mpr hp

theorem Closed.collect (ht : m.heap.Tidy) (hm : m.Closed) : m.collect.Closed where
  named := fun i hi => by
    by_cases hnull : (m.slot i).pointer = .null
    · exact Or.inl hnull
    · exact live_collect ht (.root (.named hi hnull)) (hm.named i hi)
  temps := fun p hp => live_collect ht (.root (.temp hp)) (hm.temps p hp)
  stored := fun c hc p hp => by
    obtain ⟨hold, hr⟩ := (mem_collect ht).mp hc
    have href : m.heap.Refers c.payload p := hp.mono fun _ _ _ => payload?_of_collect ht
    have hread := Heap.payload?_of_mem ht.distinct hold
    exact live_collect ht (.step hr hread href) (hm.stored c hold p href)

/-- A collection ends, keeps exactly the chunks that the roots reach, as they were and without marks,
and gives back the sizes of the others. All else but the count of collections stays. -/
theorem collect_exact (m : Memory) (ht : m.heap.Tidy) (hm : m.Closed) :
    (∃ rounds marked, Heap.Marks rounds m.heap m.rootPointers marked ∧ m.collect = { m with heap := marked.sweep }) ∧
    (∀ c, c ∈ m.collect.heap.chunks ↔ c ∈ m.heap.chunks ∧ m.heap.Reached m.IsRoot (.chunk c.addr)) ∧
    m.collect.heap.chunks.Sublist m.heap.chunks ∧
    m.collect.heap.used + Heap.totalSize (m.heap.chunks.filter fun c => c ∉ m.collect.heap.chunks) = m.heap.used ∧
    (∀ p, m.heap.Reached m.IsRoot p → m.collect.heap.payload? p = m.heap.payload? p) ∧
    (∀ c ∈ m.collect.heap.chunks, c.marked = false) ∧
    (∀ s, m.collect.heap.payload? (.static s) = some s.payload) ∧
    m.collect.roots = m.roots ∧
    m.collect.slots = m.slots ∧
    m.collect.heap.threshold = m.heap.threshold ∧
    m.collect.heap.limit = m.heap.limit ∧
    m.collect.heap.next = m.heap.next ∧
    m.collect.heap.collections = m.heap.collections + 1 ∧
    m.collect.Closed ∧ m.collect.heap.Tidy := by
  have hmark := marking_collect ht
  obtain ⟨rounds, hrounds⟩ := Heap.marks_markFrom m.heap m.rootPointers
  refine ⟨⟨rounds, _, hrounds, rfl⟩, fun c => mem_collect ht, hmark.sweep_sublist ht,
    hmark.sweep_used ht, fun p => payload?_collect ht, (tidy_collect ht).unmarked, fun s => rfl, rfl,
    rfl, ?_, ?_, ?_, ?_, hm.collect ht, tidy_collect ht⟩
  all_goals
    simp only [collect, Heap.sweep]
    rw [hmark.frame]

/-- A variable holds a list that contains itself and a string; a second list with its storage and a
second string are garbage, although they refer to the first. -/
def ringMemory : Memory where
  heap :=
    { chunks :=
        [⟨5, 40, .raw #[.list (.chunk 1), .string (.chunk 3)], false⟩, ⟨4, 24, .list ⟨2, 2, .chunk 5⟩, false⟩,
          ⟨3, 9, .string [97], false⟩,
          ⟨2, 48, .raw #[.list (.chunk 1), .string (.chunk 0), .nothing], false⟩,
          ⟨1, 24, .list ⟨2, 3, .chunk 2⟩, false⟩,
          ⟨0, 10, .string [98], false⟩]
      next := 6
      used := 155
      threshold := 1000
      limit := 2000 }
  roots := { named := #[0], temps := #[.static .nothing] }
  slots := #[.list (.chunk 1)]

/-- A collection tells the ring from what refers to it. -/
theorem collect_exact_ring : (∀ c, c ∈ ringMemory.collect.heap.chunks ↔
      c ∈ ringMemory.heap.chunks ∧ ringMemory.heap.Reached ringMemory.IsRoot (.chunk c.addr)) ∧
    ringMemory.collect.heap.collections = 1 := by
  have ht : ringMemory.heap.Tidy :=
    { distinct := by decide
      unmarked := by decide
      used := by decide }
  have hm : ringMemory.Closed :=
    { named := by decide
      temps := by decide
      stored := fun c hc p hp => by
        have hall : ∀ c ∈ ringMemory.heap.chunks, ∀ p ∈ ringMemory.heap.children c,
            ringMemory.heap.Live p := by decide
        exact hall c hc p (Heap.mem_children.mpr hp) }
  obtain ⟨-, hkept, -, -, -, -, -, -, -, -, -, -, hcount, -, -⟩ := collect_exact ringMemory ht hm
  exact ⟨hkept, hcount⟩

end Memory

end Blockwork
