import Blockwork.Proofs.Lists.Store
import Blockwork.Proofs.Rooting.Meaning

/-! # What requests change of a store
A request of memory is answered by one change of the store that memory represents, and one that is refused changes
nothing. -/

namespace Blockwork

open Memory Session Heap

variable {n : Nat} {m : Memory}

def Memory.refuses (m : Memory) (size : Nat) (content : Payload) : Bool :=
  match m.malloc size content with
  | (.ok _, _) => false
  | (.error _, _) => true

/-- Whether memory refuses a full list a larger storage. -/
def Memory.refusesGrowth (m : Memory) (p : Pointer) : Bool :=
  match p, m.heap.payload? p with
  | .chunk _, some (.list l) =>
    l.len == l.cap && m.refuses (Session.grownCap l.cap * anySize)
      (.raw (Session.storageOf (Session.grownCap l.cap) (m.heap.elements l)))
  | _, _ => false

def Request.refused (m : Memory) : Request → Bool
  | alloc size content _ => m.refuses size content
  | add p _ => m.refusesGrowth p
  | _ => false

namespace Session

variable {c : Store} {s : Session}
variable {v : Boxed} {a : Nat} {l : ListHeader} {es : Array Boxed} {p : Pointer}

theorem refuses_eq (s : Session) (size : Nat) (content : Payload) :
    s.memory.refuses size content = (s.alloc size content).1.isNone := by
  unfold refuses alloc
  cases s.memory.malloc size content with
  | mk result => cases result <;> rfl

theorem makes_allocOr (h : Represents c s.memory) (size : Nat) (fallback : Static)
    (hrefers : ∀ q, s.memory.heap.Refers content q → s.memory.Safe q)
    (hlist : ∀ l, content = .list l → l = ⟨0, 0, .null⟩) (hview : ∀ h : Heap, h.view content = some x) :
    ∃ c', c.Makes x fallback (s.memory.refuses size content) (s.allocOr size content fallback).1 c' ∧
      Represents c' (s.allocOr size content fallback).2.memory := by
  unfold Store.Makes
  obtain ⟨m, hroom, hok | ⟨e, herror⟩⟩ := s.alloc_cases size content
  · have hclear := cleared_room h.sound hroom
    have hm := h.cleared hclear
    have hgrant := hm.grant size
      (fun q hq => hclear.live h.sound (hrefers q (hq.congr fun l hl => by rw [hlist l hl]; rfl))) hlist
    rw [hview] at hgrant
    simp only [refuses_eq, allocOr, hok]
    exact ⟨_, ⟨m.heap.next, rfl, hm.fresh _ (Nat.le_refl _), rfl⟩, hgrant⟩
  · simp only [refuses_eq, allocOr, herror, fail_memory]
    exact ⟨c, ⟨trivial, rfl⟩, h.cleared (cleared_room h.sound hroom)⟩

theorem boxes_allocAny (h : Represents c s.memory) (hv : ∀ q ∈ v.pointers, s.memory.Safe q) :
    ∃ c', c.Boxes v ((s.boxes v).request.refused s.memory) (s.allocAny v).1 c' ∧
      Represents c' (s.allocAny v).2.memory := by
  unfold allocAny Store.Boxes boxes
  split
  · exact ⟨c, ⟨rfl, rfl⟩, h⟩
  · exact makes_allocOr h anySize .nothing (fun q hq => hv q (refers_any.mp hq)) nofun fun _ => rfl

theorem le_hostLimit_of_alloc (h : (s.alloc size content).1 = some q) : size ≤ hostLimit := by
  unfold alloc malloc at h
  split at h
  next heq =>
    split at heq
    · cases heq
    · simp only at heq
      split at heq
      next hfits => exact hfits.2
      next => cases heq
  next => cases h

/-! ### Changes of lists -/

theorem payload?_rewrite {h : Heap} (hlist : h.payload? (.chunk a) = some (.list l))
    (hraw : h.payload? (.chunk n) = some (.raw es)) (p : Pointer) :
    ((h.write n (.raw es')).write a (.list l')).payload? p =
      if p = .chunk a then some (.list l') else if p = .chunk n then some (.raw es') else h.payload? p := by
  have hne : Pointer.chunk a ≠ .chunk n := fun he => by
    rw [he, hraw] at hlist
    cases hlist
  rw [payload?_write, payload?_write]
  by_cases hpa : p = .chunk a
  · rw [if_pos hpa, if_pos hpa, hpa, if_neg hne, hlist, Option.map_some]
  · rw [if_neg hpa, if_neg hpa]
    by_cases hpn : p = .chunk n
    · rw [if_pos hpn, if_pos hpn, hpn, hraw, Option.map_some]
    · rw [if_neg hpn, if_neg hpn]

theorem write_same {h : Heap} (hlist : h.payload? (.chunk a) = some (.list l))
    (hraw : h.payload? (.chunk n) = some (.raw es)) (p : Pointer) : (h.write n (.raw es')).payload? p =
      if p = .chunk a then some (.list l) else if p = .chunk n then some (.raw es') else h.payload? p := by
  rw [← payload?_rewrite hlist hraw, payload?_write _ a]
  split
  next hpa =>
    have hne : p ≠ .chunk n := fun he => by
      rw [← he, hpa, hlist] at hraw
      cases hraw
    rw [payload?_write, if_neg hne, hpa, hlist, Option.map_some]
  next => rfl

theorem take_set : (es.setIfInBounds i v).toList.take len = (es.toList.take len).set i v := by
  rw [Array.toList_setIfInBounds, List.take_set]

theorem take_append (hlen : len < es.size) :
    (es.setIfInBounds len v).toList.take (len + 1) = es.toList.take len ++ [v] := by
  have hlt : len < (es.toList.set len v).length := by simpa using hlen
  rw [Array.toList_setIfInBounds, List.take_succ_eq_append_getElem hlt, List.getElem_set_self,
    List.take_set_of_le (Nat.le_refl len)]

theorem exists_list (h : Represents c s.memory) (hp : s.memory.Safe p) (hc : c p = some (.list cap vs)) :
    ∃ l, s.memory.heap.payload? p = some (.list l) ∧ cap = l.cap ∧ vs = s.memory.heap.elements l := by
  rw [h.agrees p (hp.live h.sound), datum?] at hc
  obtain ⟨content, hread, hview⟩ := Option.bind_eq_some_iff.mp hc
  cases content with
  | list l =>
    cases hview
    exact ⟨l, hread, rfl, rfl⟩
  | _ => cases hview

theorem chunk_or_empty {h : Heap} (hread : h.payload? p = some (.list l)) :
    (∃ a, p = .chunk a) ∨ l = ⟨0, 0, .null⟩ := by
  cases p with
  | null => cases hread
  | chunk a => exact .inl ⟨a, rfl⟩
  | static st =>
    cases st with
    | emptyList => exact .inr (Payload.list.inj (Option.some.inj hread)).symm
    | _ => cases hread

theorem overwritten_eq_self (h : Represents c s.memory) (hp : s.memory.Safe p)
    (hnone : ∀ a l, p = .chunk a → s.memory.heap.payload? p ≠ some (.list l)) : c.overwritten p i v = c := by
  unfold Store.overwritten
  split
  next cap vs hc =>
    obtain ⟨l, hread, -, rfl⟩ := exists_list h hp hc
    rcases chunk_or_empty hread with ⟨a, ha⟩ | rfl
    · exact absurd hread (hnone a l ha)
    · refine if_neg fun hrange => ?_
      have hempty : i < 0 := hrange.2
      omega
  next => rfl

theorem represents_listSet {index : Int64} (h : Represents c s.memory) (hp : s.memory.Safe p)
    (hv : ∀ q ∈ v.pointers, s.memory.Safe q) :
    Represents (c.overwritten p index.toInt v) (s.listSet p index v).memory := by
  have hsound : (s.listSet p index v).memory.Sound := (after_listSet h.sound hv).sound
  by_cases hlist : ∃ a l, p = .chunk a ∧ s.memory.heap.payload? p = some (.list l)
  · obtain ⟨a, ⟨len, cap, items⟩, rfl, hread⟩ := hlist
    have hshaped := h.shaped _ _ hread
    have hlength := hshaped.length
    simp only [Store.overwritten, h.sees hread, hlength]
    by_cases hrange : 0 ≤ index.toInt ∧ index.toInt < len
    · have hroom : len ≤ cap := hshaped.capacity.room
      have hcap : (s.memory.heap.storage items).size = cap := hshaped.size
      obtain ⟨n, rfl, hraw⟩ := exists_of_storage (h := s.memory.heap) (p := items) (by omega)
      have hmemory : (s.listSet (.chunk a) index v).memory =
          { s.memory with
            heap := s.memory.heap.write n
              (.raw ((s.memory.heap.storage (.chunk n)).setIfInBounds index.toInt.toNat v)) } := by
        simp only [listSet, hread, if_pos hrange, setEntry]
      have hsize : ((s.memory.heap.storage (.chunk n)).setIfInBounds index.toInt.toNat v).size = cap := by
        rw [Array.size_setIfInBounds, hcap]
      rw [hmemory] at hsound
      have hwritten := h.rewritten len _ hsound rfl hread hraw (fun q k hq hk => h.owner hread rfl hq hk) (fun q => by
          rw [hsize]
          exact write_same hread hraw q)
        (hsize ▸ hshaped.capacity) (hsize ▸ hshaped.bounded)
      rw [hsize, take_set] at hwritten
      rw [if_pos hrange, hmemory]
      exact hwritten
    · rw [if_neg hrange]
      have hsame : s.listSet (.chunk a) index v = s := by simp only [listSet, hread, if_neg hrange]
      rw [hsame]
      exact h
  · -- a list that is no chunk is the empty one, which has no element to overwrite
    have hnone : ∀ a l, p = .chunk a → s.memory.heap.payload? p ≠ some (.list l) := fun a l ha hread =>
      hlist ⟨a, l, ha, hread⟩
    have hsame : s.listSet p index v = s := by
      unfold listSet
      split
      next a l hread => exact absurd hread (hnone a l rfl)
      next => rfl
    rw [hsame, overwritten_eq_self h hp hnone]
    exact h

theorem represents_append (h : Represents c m) (hlist : m.heap.payload? (.chunk a) = some (.list l))
    (hraw : m.heap.payload? (.chunk n) = some (.raw es))
    (hown : ∀ p k, m.heap.payload? p = some (.list k) → k.items = .chunk n → p = .chunk a) (hlen : len < es.size)
    (hcap : IsCapacity es.size (len + 1)) (hbound : es.size * anySize ≤ hostLimit) (hsound : Sound
      { m with
        heap := (m.heap.write n (.raw (es.setIfInBounds len v))).write a (.list ⟨len + 1, es.size, .chunk n⟩) }) :
    Represents (c.put (.chunk a) (some (.list es.size (es.toList.take len ++ [v]))))
      { m with
        heap := (m.heap.write n (.raw (es.setIfInBounds len v))).write a (.list ⟨len + 1, es.size, .chunk n⟩) } := by
  have hsize : (es.setIfInBounds len v).size = es.size := Array.size_setIfInBounds
  have hwritten := h.rewritten (len + 1) (es.setIfInBounds len v) hsound rfl hlist hraw hown (fun p => by
      rw [hsize]
      exact payload?_rewrite hlist hraw p)
    (hsize ▸ hcap) (hsize ▸ hbound)
  rw [hsize, take_append hlen] at hwritten
  exact hwritten

theorem size_storageOf (h : old.length ≤ cap) : (storageOf cap old).size = cap := by
  simp only [storageOf, List.size_toArray, List.length_append, List.length_replicate]
  omega

theorem take_storageOf (cap : Nat) (old : List Boxed) : (storageOf cap old).toList.take old.length = old := by
  simp [storageOf]

theorem items_ne_new (hm : m.Sound) (hp : (m.grant size (.raw es)).2.heap.payload? p = some (.list k)) :
    k.items ≠ .chunk m.heap.next := by
  intro hitems
  rw [Represents.payload?_granted] at hp
  split at hp
  · cases hp
  · rcases hm.items hp with hnull | ⟨old, hold⟩
    · rw [hnull] at hitems
      cases hitems
    · exact hm.ne_next hold hitems

theorem represents_grown (h : Represents c s.memory) (hp : s.memory.Safe (.chunk a))
    (hread : s.memory.heap.payload? (.chunk a) = some (.list l)) (hfull : l.len = l.cap) (hclear : Cleared s.memory m)
    (hbound : grownSize l ≤ hostLimit)
    (hok : s.alloc (grownSize l) (s.grown l) =
      (some (.chunk m.heap.next), { s with memory := (m.grant (grownSize l) (s.grown l)).2 }))
    (hsound : (s.appendAt a l v).memory.Sound) :
    Represents (c.put (.chunk a) (some (.list (grownCap l.cap) (s.memory.heap.elements l ++ [v]))))
      (s.appendAt a l v).memory := by
  have hshaped := h.shaped _ l hread
  have hcap : IsCapacity (grownCap l.cap) (l.len + 1) := by
    rw [hfull]
    exact IsCapacity.grow (hfull ▸ hshaped.capacity)
  have hsize : (storageOf (grownCap l.cap) (s.memory.heap.elements l)).size = grownCap l.cap :=
    size_storageOf (by rw [hshaped.length]; exact Nat.le_of_succ_le hcap.room)
  have htake : (storageOf (grownCap l.cap) (s.memory.heap.elements l)).toList.take l.len =
      s.memory.heap.elements l := by
    have htake := take_storageOf (grownCap l.cap) (s.memory.heap.elements l)
    rwa [hshaped.length] at htake
  obtain ⟨es, hes⟩ : ∃ es, storageOf (grownCap l.cap) (s.memory.heap.elements l) = es := ⟨_, rfl⟩
  rw [grown, hes] at hok
  rw [hes] at hsize htake
  have hm := h.cleared hclear
  -- a storage is not seen, so that the store is the same until the list moves into it
  have hgrant : Represents c (m.grant (grownSize l) (.raw es)).2 := by
    have hgrant : Represents (c.put (.chunk m.heap.next) (m.heap.view (.raw es)))
        (m.grant (grownSize l) (.raw es)).2 := hm.grant _ nofun nofun
    rwa [show m.heap.view (.raw es) = none from rfl, Store.put_eq_self (hm.fresh _ (Nat.le_refl _))] at hgrant
  have hnew : (m.grant (grownSize l) (.raw es)).2.heap.payload? (.chunk m.heap.next) = some (.raw es) := by
    rw [Represents.payload?_granted, if_pos rfl]
  have hlist : (m.grant (grownSize l) (.raw es)).2.heap.payload? (.chunk a) = some (.list l) := by
    rw [hclear.sound.payload?_grant (hclear.live h.sound hp), hclear.kept _ hp, hread]
  have hmemory : (s.appendAt a l v).memory =
      { (m.grant (grownSize l) (.raw es)).2 with
        heap := ((m.grant (grownSize l) (.raw es)).2.heap.write m.heap.next
          (.raw (es.setIfInBounds l.len v))).write a (.list ⟨l.len + 1, es.size, .chunk m.heap.next⟩) } := by
    simp only [appendAt, if_pos hfull, hes, hok, setEntry, setHeader, storage_eq hnew, hsize]
  rw [hmemory] at hsound ⊢
  have happended := represents_append hgrant hlist hnew
    (fun q k hq hk => absurd hk (items_ne_new hm.sound hq)) (hsize ▸ hcap.room) (hsize ▸ hcap) (hsize ▸ hbound) hsound
  rw [htake, hsize] at happended
  rw [hsize]
  exact happended

theorem represents_filled (h : Represents c s.memory) (hread : s.memory.heap.payload? (.chunk a) = some (.list l))
    (hroom : l.len < l.cap) (hsound : (s.appendAt a l v).memory.Sound) :
    Represents (c.put (.chunk a) (some (.list l.cap (s.memory.heap.elements l ++ [v])))) (s.appendAt a l v).memory := by
  obtain ⟨len, cap, items⟩ := l
  have hshaped := h.shaped _ _ hread
  have hsize : (s.memory.heap.storage items).size = cap := hshaped.size
  have hroom : len < cap := hroom
  obtain ⟨n, rfl, hraw⟩ := exists_of_storage (h := s.memory.heap) (p := items) (by omega)
  have hmemory : (s.appendAt a ⟨len, cap, .chunk n⟩ v).memory =
      { s.memory with
        heap := (s.memory.heap.write n (.raw ((s.memory.heap.storage (.chunk n)).setIfInBounds len v))).write a
          (.list ⟨len + 1, (s.memory.heap.storage (.chunk n)).size, .chunk n⟩) } := by
    simp only [appendAt, if_neg (Nat.ne_of_lt hroom), setEntry, setHeader, hsize]
  rw [hmemory] at hsound ⊢
  have happended := represents_append h hread hraw (fun q k hq hk => h.owner hread rfl hq hk) (hsize ▸ hroom)
    (hsize ▸ hshaped.capacity.fill hroom) (hsize ▸ hshaped.bounded) hsound
  rw [hsize] at happended ⊢
  exact happended

theorem adds_listAdd (h : Represents c s.memory) (hp : s.memory.Safe p) (hv : ∀ q ∈ v.pointers, s.memory.Safe q) :
    ∃ c', c.Adds p v (s.memory.refusesGrowth p) c' ∧ Represents c' (s.listAdd p v).memory := by
  have hsound := (after_listAdd h.sound hp hv).sound
  by_cases hlist : ∃ a l, p = .chunk a ∧ s.memory.heap.payload? p = some (.list l)
  · obtain ⟨a, l, rfl, hread⟩ := hlist
    have hshaped := h.shaped _ l hread
    have hadd : s.listAdd (.chunk a) v = s.appendAt a l v := by simp only [listAdd, hread]
    rw [hadd] at hsound ⊢
    simp only [refusesGrowth, hread, refuses_eq]
    rcases Nat.lt_or_eq_of_le hshaped.capacity.room with hroom | hfull
    · rw [beq_false_of_ne (Nat.ne_of_lt hroom), Bool.false_and]
      refine ⟨_, .append rfl (h.sees hread) ?_, represents_filled h hread hroom hsound⟩
      rw [hshaped.length]
      exact hshaped.capacity.fill hroom
    · -- the storage is asked for before anything is written, so that a refusal leaves the list alone
      obtain ⟨m, hroom, hok | ⟨e, herror⟩⟩ := s.alloc_cases (grownSize l) (s.grown l)
      · have hbound := le_hostLimit_of_alloc (congrArg Prod.fst hok)
        rw [hok, Option.isNone_some, Bool.and_false]
        refine ⟨_, .append rfl (h.sees hread) ?_,
          represents_grown h hp hread hfull (cleared_room h.sound hroom) hbound hok hsound⟩
        rw [hshaped.length, hfull]
        exact IsCapacity.grow (hfull ▸ hshaped.capacity)
      · have hrefused : s.appendAt a l v = { s with memory := m }.fail (.outOfMemory e) := by
          simp only [appendAt, if_pos hfull, herror]
        rw [herror, hrefused, fail_memory, Option.isNone_none, Bool.and_true, beq_iff_eq.mpr hfull]
        have hc : c (.chunk a) = some (.list (s.memory.heap.elements l).length (s.memory.heap.elements l)) := by
          rw [h.sees hread, hshaped.length, hfull]
        exact ⟨c, .full hc, h.cleared (cleared_room h.sound hroom)⟩
  · have hnone : ∀ a l, p = .chunk a → s.memory.heap.payload? p ≠ some (.list l) := fun a l ha hread =>
      hlist ⟨a, l, ha, hread⟩
    have hsame : s.listAdd p v = s := by
      unfold listAdd
      split
      next a l hread => exact absurd hread (hnone a l rfl)
      next => rfl
    have hgranted : s.memory.refusesGrowth p = false := by
      unfold refusesGrowth
      split
      next a l hread => exact absurd hread (hnone a l rfl)
      next => rfl
    rw [hsame, hgranted]
    refine ⟨c, .fixed fun a cap vs ha hc => ?_, h⟩
    obtain ⟨l, hread, -⟩ := exists_list h hp hc
    exact hnone a l ha hread

theorem sequence_eq (h : Represents c s.memory) (hp : s.memory.Safe p) :
    c.sequence p = s.memory.heap.listElements p := by
  unfold Store.sequence
  rw [h.agrees p (hp.live h.sound), datum?, listElements, listHeader]
  cases s.memory.heap.payload? p with
  | none => rfl
  | some content => cases content <;> rfl

theorem nth_listElements (s : Session) (p : Pointer) (index : Int64) :
    Store.nth (s.memory.heap.listElements p) index.toInt = s.elementAt p index := by
  unfold Store.nth elementAt
  rw [List.getD_eq_getElem?_getD]
  by_cases hneg : index.toInt < 0
  · rw [if_neg (by omega), if_pos hneg]
  · rw [if_neg hneg]
    split
    · rfl
    · rw [List.getElem?_eq_none (by omega), Option.getD_none]

theorem toInt_listLength (h : Represents c s.memory) :
    (Int64.ofNat (s.listLength p)).toInt = (s.memory.heap.listElements p).length := by
  have hshaped : s.memory.heap.Shaped (s.memory.heap.listHeader p) := by
    unfold listHeader
    split
    next l hread => exact h.shaped p l hread
    next => exact shaped_empty
  have hroom := hshaped.capacity.room
  have hbound := hshaped.bounded
  rw [listElements, hshaped.length]
  refine Int64.toInt_ofNat_of_lt ?_
  simp only [listLength, anySize, hostLimit] at hbound ⊢
  omega

end Session

theorem Request.recorded {q : Request} (h : q.refused s.memory = true) : (q.carry s).2.abort.isSome = true := by
  cases q with
  | none | collect | set => cases h
  | alloc size content =>
    obtain ⟨m, -, hok | ⟨e, herror⟩⟩ := s.alloc_cases size content
    · simp only [refused, refuses_eq, hok, Option.isNone_some] at h
      cases h
    · simp only [carry, allocOr, herror]
      exact isSome_fail _ _
  | add p =>
    have hgrowth : s.memory.refusesGrowth p = true := h
    unfold refusesGrowth at hgrowth
    split at hgrowth
    next a l hread =>
      obtain ⟨hfull, hrefuses⟩ := Bool.and_eq_true_iff.mp hgrowth
      rw [refuses_eq] at hrefuses
      obtain ⟨m, -, hok | ⟨e, herror⟩⟩ := s.alloc_cases (grownSize l) (s.grown l)
      · rw [hok] at hrefuses
        cases hrefuses
      · simp only [carry, listAdd, hread, appendAt, if_pos (beq_iff_eq.mp hfull), herror]
        exact isSome_fail _ _
    next => cases hgrowth

/-! ### Roots and variables -/

theorem mem_of_mem_shrink {α : Type} {xs : Array α} {x : α} (h : x ∈ xs.shrink n) : x ∈ xs := by
  rw [← Array.mem_toList_iff, Array.toList_shrink] at h
  exact Array.mem_toList_iff.mp (List.mem_of_mem_take h)

namespace Roots

theorem sub_cutTo (r : Roots) (f : RootFrame) : (r.cutTo f).Sub r :=
  ⟨fun _ => mem_of_mem_shrink, fun _ => mem_of_mem_shrink⟩

theorem sub_flush (r : Roots) : r.flush.Sub r := ⟨fun _ => id, fun _ => mem_of_mem_shrink⟩

theorem sub_closeFrame (r : Roots) : r.closeFrame.2.Sub r := by
  unfold closeFrame
  split
  · exact .refl r
  next f _ => exact ⟨(r.sub_cutTo f).named, (r.sub_cutTo f).temps⟩

theorem sub_restore (r : Roots) : r.restore.2.Sub r := by
  unfold restore
  split
  · exact .refl r
  · simp only
    split
    · exact ⟨fun _ => id, fun _ => id⟩
    · exact ⟨fun _ => mem_of_mem_shrink, fun _ => mem_of_mem_shrink⟩

end Roots

theorem Memory.Represents.sub (h : Represents c m) (hr : r.Sub m.roots) : Represents c { m with roots := r } :=
  h.withRoots (h.sound.withRoots (fun i hi => h.sound.closed.named i (hr.named i hi))
    fun p hp => h.sound.closed.temps p (hr.temps p hp))

theorem Memory.Represents.addTemp (h : Represents c m) (hp : m.heap.Live p) :
    Represents c { m with roots := m.roots.addTemp p } := by
  unfold Roots.addTemp
  split
  · exact h
  · refine h.withRoots (h.sound.withRoots h.sound.closed.named fun q hq => ?_)
    rcases Array.mem_push.mp hq with hq | rfl
    · exact h.sound.closed.temps q hq
    · exact hp

theorem Memory.Represents.setSlot (h : Represents c m) (hv : i ∈ m.roots.named → m.heap.Live v.pointer) :
    Represents c (m.setSlot i v) := by
  refine h.withSlots (h.sound.withSlots fun j hj => ?_)
  rw [Array.getD_eq_getD_getElem?, Array.getElem?_setIfInBounds]
  split
  next heq =>
    subst heq
    split
    · exact hv hj
    · exact live_null _
  next =>
    have hlive := h.sound.closed.named j hj
    rwa [slot, Array.getD_eq_getD_getElem?] at hlive

end Blockwork
