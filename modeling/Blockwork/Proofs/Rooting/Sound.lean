import Blockwork.Proofs.Collection
import Blockwork.Session.Lists

/-! # Sound memory
No pointer of sound memory dangles, and lists keep their elements in storage of their own. -/

namespace Blockwork

open Heap

namespace Heap

/-! ### Reading after a change -/

theorem payload?_push (h : Heap) (size : Nat) (content : Payload) (p : Pointer) :
    (h.push size content).payload? p = if p = .chunk h.next then some content else h.payload? p := by
  cases p with
  | null | static => rfl
  | chunk a =>
    by_cases ha : a = h.next
    · simp [payload?, find?, push, ha]
    · have hne : (h.next == a) = false := by simpa using fun he => ha he.symm
      simp [payload?, find?, push, ha, hne]

theorem payload?_write (h : Heap) (a : Nat) (content : Payload) (p : Pointer) : (h.write a content).payload? p =
      if p = .chunk a then (h.payload? p).map fun _ => content else h.payload? p := by
  cases p with
  | null | static => rfl
  | chunk b =>
    have hfind : (h.write a content).find? b =
        (h.find? b).map fun c => if c.addr == a then { c with payload := content } else c := by
      simp only [find?, write, List.find?_map]
      congr 2
      funext c
      simp only [Function.comp]
      split <;> rfl
    simp only [payload?, hfind, Option.map_map]
    cases hb : h.find? b with
    | none => simp
    | some c =>
      have haddr : c.addr = b := by simpa using List.find?_some hb
      by_cases hab : b = a
      · simp [haddr, hab]
      · simp [haddr, hab]

theorem payload?_overwrite {h : Heap} (hold : h.payload? (.chunk a) = some old) (content : Payload) (p : Pointer) :
    (h.write a content).payload? p = if p = .chunk a then some content else h.payload? p := by
  rw [payload?_write]
  split
  next heq => rw [heq, hold, Option.map_some]
  next => rfl

theorem live_null (h : Heap) : h.Live .null := Or.inl rfl

theorem live_static (h : Heap) (s : Static) : h.Live (.static s) := Or.inr rfl

theorem live_of_payload? {h : Heap} (hp : h.payload? p = some content) : h.Live p := Or.inr (by rw [hp]; rfl)

theorem refers_static {h : Heap} {s : Static} : ¬ h.Refers s.payload p := by
  intro hr
  cases s with
  | nothing | emptyString => cases hr
  | emptyList =>
    cases hr with
    | storage hne => exact hne rfl
    | stringElement hp hi _ _ | listElement hp hi _ _ => exact absurd hi (Nat.not_lt_zero _)

theorem Refers.congr {h h' : Heap} (hr : h.Refers content p)
    (hs : ∀ l, content = .list l → h'.payload? l.items = h.payload? l.items) : h'.Refers content p :=
  hr.mono fun l _ hl hitems => (hs l hl).trans hitems

end Heap

namespace Memory

/-- No pointer dangles, lists keep their elements in a backing storage, and addresses are handed out in
order. -/
structure Sound (m : Memory) : Prop where
  tidy : m.heap.Tidy
  closed : m.Closed
  below : ∀ c ∈ m.heap.chunks, c.addr < m.heap.next
  lists : ∀ c ∈ m.heap.chunks, ∀ l, c.payload = .list l →
    l.items = .null ∨ ∃ items, m.heap.payload? l.items = some (.raw items)

namespace Sound

variable {m : Memory} {p : Pointer} {content : Payload}

theorem new (low limit : Nat) : (Memory.new low limit).Sound where
  tidy := ⟨List.nodup_nil, nofun, rfl⟩
  closed := ⟨by simp [Memory.new], by simp [Memory.new], nofun⟩
  below := nofun
  lists := nofun

theorem refers (h : m.Sound) (hp : m.heap.payload? p = some content) (hr : m.heap.Refers content q) :
    m.heap.Live q := by
  cases p with
  | null => cases hp
  | static s =>
    cases hp
    exact absurd hr refers_static
  | chunk a =>
    obtain ⟨c, hc, -, rfl⟩ := payload?_chunk hp
    exact h.closed.stored c hc q hr

theorem items (h : m.Sound) (hp : m.heap.payload? p = some (.list l)) :
    l.items = .null ∨ ∃ items, m.heap.payload? l.items = some (.raw items) := by
  cases p with
  | null => cases hp
  | static s =>
    cases s with
    | nothing | emptyString => cases hp
    | emptyList =>
      cases hp
      exact Or.inl rfl
  | chunk a =>
    obtain ⟨c, hc, -, hcontent⟩ := payload?_chunk hp
    exact h.lists c hc l hcontent

theorem lt_next (h : m.Sound) (hp : m.heap.payload? (.chunk a) = some content) : a < m.heap.next := by
  obtain ⟨c, hc, rfl, -⟩ := payload?_chunk hp
  exact h.below c hc

theorem ne_next (h : m.Sound) (hp : m.heap.payload? p = some content) : p ≠ .chunk m.heap.next := by
  rintro rfl
  exact absurd (h.lt_next hp) (Nat.lt_irrefl _)

theorem of_view (ht : m.heap.Tidy) (hb : ∀ c ∈ m.heap.chunks, c.addr < m.heap.next)
    (hn : ∀ i ∈ m.roots.named, m.heap.Live (m.slot i).pointer) (hp : ∀ p ∈ m.roots.temps, m.heap.Live p)
    (hs : ∀ p content q, m.heap.payload? p = some content → m.heap.Refers content q → m.heap.Live q)
    (hl : ∀ p l, m.heap.payload? p = some (.list l) →
      l.items = .null ∨ ∃ items, m.heap.payload? l.items = some (.raw items)) : m.Sound where
  tidy := ht
  closed := ⟨hn, hp, fun c hc q => hs _ _ q (payload?_of_mem ht.distinct hc)⟩
  below := hb
  lists := fun c hc l hcontent =>
    hl (.chunk c.addr) l (by rw [payload?_of_mem ht.distinct hc, hcontent])

end Sound

def Safe (m : Memory) (p : Pointer) : Prop :=
  p = .null ∨ (∃ s, p = .static s) ∨ m.heap.Reached m.IsRoot p

namespace Safe

variable {m : Memory} {p : Pointer} {content : Payload}

theorem live (h : m.Safe p) (hm : m.Sound) : m.heap.Live p := by
  rcases h with rfl | ⟨s, rfl⟩ | hr
  · exact m.heap.live_null
  · exact m.heap.live_static s
  · induction hr with
    | root hroot =>
      cases hroot with
      | temp hp => exact hm.closed.temps _ hp
      | named hi _ => exact hm.closed.named _ hi
    | step _ hread href _ => exact hm.refers hread href

theorem refers (h : m.Safe p) (hp : m.heap.payload? p = some content) (hr : m.heap.Refers content q) : m.Safe q := by
  cases p with
  | null => cases hp
  | static s =>
    cases hp
    exact absurd hr refers_static
  | chunk a =>
    rcases h with hnull | ⟨s, hstatic⟩ | hreached
    · cases hnull
    · cases hstatic
    · exact Or.inr (Or.inr (.step hreached hp hr))

theorem payload?_collect (h : m.Safe p) (hm : m.Sound) : m.collect.heap.payload? p = m.heap.payload? p := by
  rcases h with rfl | ⟨s, rfl⟩ | hr
  · rfl
  · rfl
  · exact Memory.payload?_collect hm.tidy hr

end Safe

/-! ### Making room -/

def withThreshold (m : Memory) (t : Nat) : Memory :=
  { m with heap := { m.heap with threshold := t } }

theorem next_collect {m : Memory} (ht : m.heap.Tidy) : m.collect.heap.next = m.heap.next := by
  simp only [collect, sweep]
  rw [(marking_collect ht).frame]

theorem makeRoom_cases (m : Memory) (size : Nat) :
    ∃ t, m.makeRoom size = m.withThreshold t ∨ m.makeRoom size = m.collect.withThreshold t := by
  unfold makeRoom
  split
  · exact ⟨m.heap.threshold, Or.inl rfl⟩
  · simp only
    split
    · exact ⟨m.collect.heap.threshold, Or.inr rfl⟩
    · exact ⟨_, Or.inr rfl⟩

structure Cleared (m m' : Memory) : Prop where
  sound : m'.Sound
  roots : m'.roots = m.roots
  slots : m'.slots = m.slots
  next : m'.heap.next = m.heap.next
  kept : ∀ p, m.Safe p → m'.heap.payload? p = m.heap.payload? p
  old : ∀ p content, m'.heap.payload? p = some content → m.heap.payload? p = some content

namespace Sound

variable {m : Memory}

theorem collect (h : m.Sound) : m.collect.Sound where
  tidy := tidy_collect h.tidy
  closed := h.closed.collect h.tidy
  below := fun c hc => by
    rw [next_collect h.tidy]
    exact h.below c ((mem_collect h.tidy).mp hc).1
  lists := fun c hc l hcontent => by
    obtain ⟨hold, hreached⟩ := (mem_collect h.tidy).mp hc
    have hread : m.heap.payload? (.chunk c.addr) = some (.list l) :=
      (payload?_of_mem h.tidy.distinct hold).trans (congrArg some hcontent)
    rcases h.lists c hold l hcontent with hnull | ⟨items, hitems⟩
    · exact Or.inl hnull
    · have hne : l.items ≠ .null := fun he => by simp [he, payload?] at hitems
      have hsafe : m.Safe l.items := Or.inr (Or.inr (.step hreached hread (.storage hne)))
      exact Or.inr ⟨items, (hsafe.payload?_collect h).trans hitems⟩

theorem withThreshold (h : m.Sound) (t : Nat) : (m.withThreshold t).Sound := by
  refine .of_view ⟨h.tidy.distinct, h.tidy.unmarked, h.tidy.used⟩ h.below h.closed.named h.closed.temps
    (fun p content q hp hr => ?_) fun _ _ hp => h.items hp
  exact h.refers hp (hr.congr fun _ _ => rfl)

theorem cleared_collect (h : m.Sound) : Cleared m m.collect :=
  ⟨h.collect, rfl, rfl, next_collect h.tidy, fun _ hp => hp.payload?_collect h, fun _ _ => payload?_of_collect h.tidy⟩

theorem cleared_makeRoom (h : m.Sound) (size : Nat) : Cleared m (m.makeRoom size) := by
  obtain ⟨t, ht | ht⟩ := makeRoom_cases m size
  · rw [ht]
    exact ⟨h.withThreshold t, rfl, rfl, rfl, fun _ _ => rfl, fun _ _ => id⟩
  · have hc := h.cleared_collect
    rw [ht]
    exact ⟨hc.sound.withThreshold t, rfl, rfl, hc.next, hc.kept, hc.old⟩

end Sound

theorem Cleared.live (h : Cleared m m') (hm : m.Sound) (hp : m.Safe p) : m'.heap.Live p :=
  (live_congr (h.kept p hp)).mpr (hp.live hm)

theorem Cleared.refl (h : m.Sound) : Cleared m m :=
  ⟨h, rfl, rfl, rfl, fun _ _ => rfl, fun _ _ => id⟩

theorem room_cases {m m' : Memory} (h : m' = m ∨ m' = m.makeRoom size) : m'.roots = m.roots ∧ m'.slots = m.slots := by
  rcases h with rfl | rfl
  · exact ⟨rfl, rfl⟩
  · obtain ⟨t, ht | ht⟩ := makeRoom_cases m size <;> rw [ht] <;> exact ⟨rfl, rfl⟩

theorem malloc_cases (m : Memory) (size : Nat) (content : Payload) : ∃ m', (m' = m ∨ m' = m.makeRoom size) ∧
      (m.malloc size content = (.ok (.chunk m'.heap.next), (m'.grant size content).2) ∨
        ∃ e, m.malloc size content = (.error e, m')) := by
  unfold malloc
  split
  · exact ⟨m, Or.inl rfl, Or.inr ⟨_, rfl⟩⟩
  · refine ⟨m.makeRoom size, Or.inr rfl, ?_⟩
    simp only
    split
    · exact Or.inl rfl
    · exact Or.inr ⟨_, rfl⟩

theorem slot_congr {m m' : Memory} (h : m'.slots = m.slots) (i : Nat) : m'.slot i = m.slot i := by
  unfold slot
  rw [h]

namespace Sound

variable {m : Memory} {p : Pointer} {content : Payload}

theorem payload?_grant (h : m.Sound) (hp : m.heap.Live p) :
    (m.grant size content).2.heap.payload? p = m.heap.payload? p := by
  simp only [grant, payload?_push]
  refine if_neg ?_
  rintro rfl
  rcases hp with hnull | hlive
  · cases hnull
  · obtain ⟨old, hold⟩ := Option.isSome_iff_exists.mp hlive
    exact h.ne_next hold rfl

theorem live_grant (h : m.Sound) (hp : m.heap.Live p) : (m.grant size content).2.heap.Live p :=
  (live_congr (h.payload?_grant hp)).mpr hp

theorem live_granted (m : Memory) (size : Nat) (content : Payload) :
    (m.grant size content).2.heap.Live (.chunk m.heap.next) := by
  have hread : (m.grant size content).2.heap.payload? (.chunk m.heap.next) = some content := by
    simp only [grant, payload?_push, if_true]
  exact live_of_payload? hread

theorem tidy_push (h : m.Sound) : (m.heap.push size content).Tidy where
  distinct := by
    simp only [push, List.map_cons, List.nodup_cons]
    refine ⟨fun hmem => ?_, h.tidy.distinct⟩
    obtain ⟨c, hc, haddr⟩ := List.mem_map.mp hmem
    exact absurd (haddr ▸ h.below c hc) (Nat.lt_irrefl _)
  unmarked := fun c hc => by
    rcases List.mem_cons.mp hc with rfl | hc
    · rfl
    · exact h.tidy.unmarked c hc
  used := by
    have hused := h.tidy.used
    simp only [push, totalSize, List.foldr_cons] at hused ⊢
    omega

theorem grant (h : m.Sound) (hcontent : ∀ q, m.heap.Refers content q → m.heap.Live q)
    (hlist : ∀ l, content = .list l → l.items = .null) : (m.grant size content).2.Sound := by
  have hold : ∀ {q old}, (m.grant size content).2.heap.payload? q = some old →
      (q = .chunk m.heap.next ∧ old = content) ∨ m.heap.payload? q = some old := by
    intro q old hq
    simp only [Memory.grant, payload?_push] at hq
    split at hq
    next heq => exact Or.inl ⟨heq, (Option.some.inj hq).symm⟩
    next => exact Or.inr hq
  have hitems : ∀ l, (content = .list l ∨ ∃ q, m.heap.payload? q = some (.list l)) → m.heap.Live l.items := by
    rintro l (hl | ⟨q, hq⟩)
    · exact Or.inl (hlist l hl)
    · rcases h.items hq with hnull | ⟨items, hitems⟩
      · exact Or.inl hnull
      · exact live_of_payload? hitems
  refine .of_view h.tidy_push ?_ ?_ ?_ ?_ ?_
  · intro c hc
    rcases List.mem_cons.mp hc with rfl | hc
    · exact Nat.lt_succ_self _
    · exact Nat.lt_succ_of_lt (h.below c hc)
  · intro i hi
    have hnamed : i ∈ m.roots.named := by simpa [Memory.grant, Roots.addTemp] using hi
    exact h.live_grant (h.closed.named i hnamed)
  · intro p hp
    have hmem : p ∈ m.roots.temps ∨ p = .chunk m.heap.next := by
      simpa [Memory.grant, Roots.addTemp] using hp
    rcases hmem with hmem | rfl
    · exact h.live_grant (h.closed.temps p hmem)
    · exact live_granted m size content
  · intro p old q hp hr
    have hsame : ∀ l, old = .list l → m.heap.payload? l.items = (m.grant size content).2.heap.payload? l.items := by
      rintro l rfl
      refine (h.payload?_grant (hitems l ?_)).symm
      rcases hold hp with ⟨-, hl⟩ | hq
      · exact Or.inl hl.symm
      · exact Or.inr ⟨p, hq⟩
    rcases hold hp with ⟨-, rfl⟩ | hq
    · exact h.live_grant (hcontent q (hr.congr hsame))
    · exact h.live_grant (h.refers hq (hr.congr hsame))
  · intro p l hp
    rcases hold hp with ⟨-, hl⟩ | hq
    · exact Or.inl (hlist l hl.symm)
    · rcases h.items hq with hnull | ⟨items, hread⟩
      · exact Or.inl hnull
      · exact Or.inr ⟨items, (h.payload?_grant (live_of_payload? hread)).trans hread⟩

end Sound

theorem live_write {h : Heap} : (h.write a content).Live p ↔ h.Live p := by
  unfold Live
  rw [payload?_write]
  split
  · rw [Option.isSome_map]
  · exact Iff.rfl

theorem tidy_write {h : Heap} (ht : h.Tidy) (a : Nat) (content : Payload) : (h.write a content).Tidy := by
  have haddr : (h.write a content).chunks.map Chunk.addr = h.chunks.map Chunk.addr := by
    simp only [write, List.map_map]
    refine List.map_congr_left fun c _ => ?_
    simp only [Function.comp]
    split <;> rfl
  have hsize : totalSize (h.write a content).chunks = totalSize h.chunks := by
    simp only [write]
    induction h.chunks with
    | nil => rfl
    | cons c cs ih =>
      simp only [totalSize, List.map_cons, List.foldr_cons] at ih ⊢
      rw [ih]
      split <;> rfl
  refine ⟨haddr ▸ ht.distinct, fun c hc => ?_, ht.used.trans hsize.symm⟩
  obtain ⟨d, hd, rfl⟩ := List.mem_map.mp hc
  split <;> exact ht.unmarked d hd

namespace Sound

variable {m : Memory} {content : Payload}

theorem below_write (h : m.Sound) : ∀ c ∈ (m.heap.write a content).chunks, c.addr < m.heap.next := by
  intro c hc
  obtain ⟨d, hd, rfl⟩ := List.mem_map.mp hc
  split <;> exact h.below d hd

theorem writeEntry (h : m.Sound) (hraw : m.heap.payload? (.chunk a) = some (.raw es))
    (hv : ∀ p ∈ v.pointers, m.heap.Live p) :
    Sound { m with heap := m.heap.write a (.raw (es.setIfInBounds i v)) } := by
  have hread := payload?_overwrite hraw (.raw (es.setIfInBounds i v))
  -- an entry that can be read now could be read before, or is the new one
  have hentry : ∀ {items : Pointer} {es' : Array Boxed} {j : Nat} {w : Boxed},
      (m.heap.write a (.raw (es.setIfInBounds i v))).payload? items = some (.raw es') → es'[j]? = some w →
      w = v ∨ ∃ old, m.heap.payload? items = some (.raw old) ∧ old[j]? = some w := by
    intro items es' j w hp hw
    rw [hread] at hp
    split at hp
    next heq =>
      cases hp
      rw [Array.getElem?_setIfInBounds] at hw
      split at hw
      · split at hw
        · exact Or.inl (Option.some.inj hw).symm
        · cases hw
      · exact Or.inr ⟨es, heq ▸ hraw, hw⟩
    next => exact Or.inr ⟨es', hp, hw⟩
  refine .of_view (tidy_write h.tidy _ _) h.below_write ?_ ?_ ?_ ?_
  · exact fun j hj => live_write.mpr (h.closed.named j hj)
  · exact fun p hp => live_write.mpr (h.closed.temps p hp)
  · intro p content q hp hr
    refine live_write.mpr ?_
    rw [hread] at hp
    split at hp
    · cases hp
      cases hr
    · cases hr with
      | boxedString hne => exact h.refers hp (.boxedString hne)
      | boxedList hne => exact h.refers hp (.boxedList hne)
      | storage hne => exact h.refers hp (.storage hne)
      | stringElement hl hj hw hne =>
        rcases hentry hl hw with rfl | ⟨old, hold, hold'⟩
        · exact hv q (mem_pointers_string.mpr ⟨hne, rfl⟩)
        · exact h.refers hp (.stringElement hold hj hold' hne)
      | listElement hl hj hw hne =>
        rcases hentry hl hw with rfl | ⟨old, hold, hold'⟩
        · exact hv q (mem_pointers_list.mpr ⟨hne, rfl⟩)
        · exact h.refers hp (.listElement hold hj hold' hne)
  · intro p l hp
    rw [hread] at hp
    split at hp
    · cases hp
    · rcases h.items hp with hnull | ⟨items, hitems⟩
      · exact Or.inl hnull
      · refine Or.inr ?_
        simp only [hread]
        split
        · exact ⟨_, rfl⟩
        · exact ⟨items, hitems⟩

theorem writeHeader (h : m.Sound) (hlist : m.heap.payload? (.chunk a) = some (.list l))
    (hitems : l'.items = .null ∨ ∃ es, m.heap.payload? l'.items = some (.raw es))
    (hstored : ∀ q, m.heap.Refers (.list l') q → m.heap.Live q) :
    Sound { m with heap := m.heap.write a (.list l') } := by
  have hread := payload?_overwrite hlist (.list l')
  have hraw : ∀ {items : Pointer}, (items = .null ∨ ∃ es, m.heap.payload? items = some (.raw es)) →
      (m.heap.write a (.list l')).payload? items = m.heap.payload? items := by
    intro items hi
    rw [hread, if_neg]
    rintro rfl
    rcases hi with hnull | ⟨es, hes⟩
    · cases hnull
    · rw [hlist] at hes
      cases hes
  have hstorage : ∀ {items : Pointer}, (items = .null ∨ ∃ es, m.heap.payload? items = some (.raw es)) →
      items = .null ∨ ∃ es, (m.heap.write a (.list l')).payload? items = some (.raw es) := fun hi =>
    hi.imp id fun ⟨es, hes⟩ => ⟨es, (hraw hi).trans hes⟩
  refine .of_view (tidy_write h.tidy _ _) h.below_write ?_ ?_ ?_ ?_
  · exact fun j hj => live_write.mpr (h.closed.named j hj)
  · exact fun p hp => live_write.mpr (h.closed.temps p hp)
  · intro p content q hp hr
    refine live_write.mpr ?_
    rw [hread] at hp
    split at hp
    · cases hp
      refine hstored q (hr.congr ?_)
      rintro _ ⟨⟩
      exact (hraw hitems).symm
    · refine h.refers hp (hr.congr ?_)
      rintro l₁ rfl
      exact (hraw (h.items hp)).symm
  · intro p l₁ hp
    rw [hread] at hp
    split at hp
    · cases hp
      exact hstorage hitems
    · exact hstorage (h.items hp)

end Sound

end Memory

end Blockwork
