import Mathlib.Algebra.GroupWithZero.Nat
import Blockwork.Proofs.Rooting.Held

/-! # Lists as sequences
A store gives every pointer what a program sees behind it, and memory represents a store when everything it still
holds looks as the store says. -/

namespace Blockwork

open Heap

/-- Capacity of a list with `len` elements: none when it is empty, otherwise the smallest power of two that is not
below `len`. -/
structure IsCapacity (cap len : Nat) : Prop where
  empty : len = 0 → cap = 0
  room : len ≤ cap
  power : len ≠ 0 → ∃ k, cap = 2 ^ k
  least : len ≠ 0 → ∀ k, len ≤ 2 ^ k → cap ≤ 2 ^ k

namespace IsCapacity

theorem zero : IsCapacity 0 0 := ⟨fun _ => rfl, Nat.le_refl 0, fun h => absurd rfl h, fun h => absurd rfl h⟩

theorem fill (h : IsCapacity cap len) (hlt : len < cap) : IsCapacity cap (len + 1) := by
  have hne : len ≠ 0 := fun hzero => by
    rw [h.empty hzero] at hlt
    omega
  exact ⟨fun hzero => absurd hzero (Nat.succ_ne_zero len), hlt, fun _ => h.power hne,
    fun _ k hk => h.least hne k (Nat.le_of_succ_le hk)⟩

theorem grow (h : IsCapacity cap cap) : IsCapacity (Session.grownCap cap) (cap + 1) := by
  unfold Session.grownCap
  split
  next hzero =>
    subst hzero
    exact ⟨nofun, Nat.le_refl 1, fun _ => ⟨0, rfl⟩, fun _ _ hk => hk⟩
  next hne =>
    obtain ⟨k, rfl⟩ := h.power hne
    have hpos : 0 < 2 ^ k := Nat.pos_of_ne_zero hne
    refine ⟨nofun, by omega, fun _ => ⟨k + 1, (Nat.pow_succ 2 k).symm⟩, fun _ j hj => ?_⟩
    rw [← Nat.pow_succ]
    refine Nat.pow_le_pow_right (by omega) ?_
    exact (Nat.pow_lt_pow_iff_right (by omega)).mp hj

end IsCapacity

/-! ### What is seen in memory -/

/-- What a program sees behind a pointer. -/
inductive Datum where
  | text (b : Bytes)
  | box (v : Boxed)
  | list (cap : Nat) (vs : List Boxed)
  deriving DecidableEq

namespace Heap

/-- What is seen of a payload. -/
def view (h : Heap) : Payload → Option Datum
  | .raw _ => none
  | .any v => some (.box v)
  | .string b => some (.text b)
  | .list l => some (.list l.cap (h.elements l))

/-- What is seen behind a pointer. -/
def datum? (h : Heap) (p : Pointer) : Option Datum :=
  (h.payload? p).bind h.view

/-- A list keeps its elements in a storage as large as its capacity, which the host can grant. -/
structure Shaped (h : Heap) (l : ListHeader) : Prop where
  capacity : IsCapacity l.cap l.len
  size : (h.storage l.items).size = l.cap
  bounded : l.cap * anySize ≤ hostLimit

variable {h h' : Heap} {l : ListHeader} {p q : Pointer}

theorem Shaped.length (hl : h.Shaped l) : (h.elements l).length = l.len := by
  have hroom := hl.capacity.room
  rw [← hl.size] at hroom
  simp [elements, hroom]

theorem shaped_empty : h.Shaped ⟨0, 0, .null⟩ := ⟨.zero, rfl, Nat.zero_le _⟩

theorem Shaped.congr (hs : h'.storage l.items = h.storage l.items) (hl : h.Shaped l) : h'.Shaped l :=
  ⟨hl.capacity, hs ▸ hl.size, hl.bounded⟩

theorem datum?_congr (hp : h'.payload? p = h.payload? p)
    (hs : ∀ l, h.payload? p = some (.list l) → h'.storage l.items = h.storage l.items) : h'.datum? p = h.datum? p := by
  unfold datum?
  rw [hp]
  cases hread : h.payload? p with
  | none => rfl
  | some content =>
    cases content with
    | list l => simp only [Option.bind_some, view, elements, hs l hread]
    | _ => rfl

theorem storage_eq (hp : h.payload? p = some (.raw es)) : h.storage p = es := by
  unfold storage
  rw [hp]

theorem exists_of_storage (hsize : 0 < (h.storage p).size) :
    ∃ n, p = .chunk n ∧ h.payload? p = some (.raw (h.storage p)) := by
  cases hread : h.payload? p with
  | none => simp [storage, hread] at hsize
  | some content =>
    cases content with
    | raw =>
      rw [storage_eq hread]
      cases p with
      | null => cases hread
      | static s => cases s <;> cases hread
      | chunk n => exact ⟨n, rfl, rfl⟩
    | _ => simp [storage, hread] at hsize

end Heap

/-! ### Stores -/

abbrev Store := Pointer → Option Datum

namespace Store

def put (c : Store) (p : Pointer) (x : Option Datum) : Store :=
  fun q => if q = p then x else c q

@[simp] theorem put_self (c : Store) (p : Pointer) (x : Option Datum) : c.put p x p = x := if_pos rfl

theorem put_of_ne (c : Store) (x : Option Datum) (h : q ≠ p) : c.put p x q = c q := if_neg h

theorem put_eq_self {c : Store} (h : c p = x) : c.put p x = c := by
  funext q
  unfold put
  split
  next heq => rw [heq, h]
  next => rfl

def start : Store
  | .static .nothing => some (.box .nothing)
  | .static .emptyString => some (.text [])
  | .static .emptyList => some (.list 0 [])
  | _ => none

def sequence (c : Store) (p : Pointer) : List Boxed :=
  match c p with
  | some (.list _ vs) => vs
  | _ => []

def nth (vs : List Boxed) (i : Int) : Boxed :=
  if 0 ≤ i ∧ i < vs.length then vs.getD i.toNat .nothing else .nothing

/-- One element of a list is overwritten, unless the index is out of range. -/
def overwritten (c : Store) (p : Pointer) (i : Int) (v : Boxed) : Store :=
  match c p with
  | some (.list cap vs) => if 0 ≤ i ∧ i < vs.length then c.put p (some (.list cap (vs.set i.toNat v))) else c
  | _ => c

inductive Adds (c : Store) (p : Pointer) (v : Boxed) : Bool → Store → Prop
  | append {a cap cap' : Nat} {vs : List Boxed} : p = .chunk a → c p = some (.list cap vs) →
      IsCapacity cap' (vs.length + 1) → Adds c p v false (c.put p (some (.list cap' (vs ++ [v]))))
  /-- A full list stays as it is when it cannot grow. -/
  | full {vs : List Boxed} : c p = some (.list vs.length vs) → Adds c p v true c
  /-- Null and the static empty list take no elements. -/
  | fixed : (∀ a cap vs, p = .chunk a → c p ≠ some (.list cap vs)) → Adds c p v false c

/-- Something new is made, or refused and replaced by a static value. -/
def Makes (c : Store) (x : Datum) (fallback : Static) (refused : Bool) (q : Pointer) (c' : Store) : Prop :=
  if refused then q = .static fallback ∧ c' = c else ∃ a, q = .chunk a ∧ c q = none ∧ c' = c.put q (some x)

def Boxes (c : Store) (v : Boxed) (refused : Bool) (q : Pointer) (c' : Store) : Prop :=
  if v = .nothing then q = .static .nothing ∧ c' = c else c.Makes (.box v) .nothing refused q c'

end Store

namespace Memory

structure Represents (c : Store) (m : Memory) : Prop where
  sound : m.Sound
  shaped : ∀ p l, m.heap.payload? p = some (.list l) → m.heap.Shaped l
  apart : ∀ p q l k, m.heap.payload? p = some (.list l) → m.heap.payload? q = some (.list k) → l.items = k.items →
    l.items ≠ .null → p = q
  agrees : ∀ p, m.heap.Live p → c p = m.heap.datum? p
  fresh : ∀ a, m.heap.next ≤ a → c (.chunk a) = none

namespace Represents

variable {c : Store} {m : Memory} {p : Pointer} {l : ListHeader}

theorem sees (h : Represents c m) (hp : m.heap.payload? p = some (.list l)) :
    c p = some (.list l.cap (m.heap.elements l)) := by
  rw [h.agrees p (live_of_payload? hp), datum?, hp]
  rfl

theorem owner (h : Represents c m) (hp : m.heap.payload? p = some (.list l)) (hl : l.items = .chunk n)
    (hq : m.heap.payload? q = some (.list k)) (hk : k.items = .chunk n) : q = p :=
  h.apart q p k l hq hp (hk.trans hl.symm) (by simp [hk])

theorem of_old (h : Represents c m) (hsound : m'.Sound)
    (hold : ∀ p l, m'.heap.payload? p = some (.list l) → l = ⟨0, 0, .null⟩ ∨
      m.heap.payload? p = some (.list l) ∧ m'.heap.storage l.items = m.heap.storage l.items)
    (hagrees : ∀ p, m'.heap.Live p → c' p = m'.heap.datum? p) (hfresh : ∀ a, m'.heap.next ≤ a → c' (.chunk a) = none) :
    Represents c' m' where
  sound := hsound
  shaped := fun p l hp => by
    rcases hold p l hp with rfl | ⟨hp, hs⟩
    · exact shaped_empty
    · exact (h.shaped p l hp).congr hs
  apart := fun p q l k hp hq heq hne => by
    rcases hold p l hp with rfl | ⟨hp, -⟩
    · exact absurd rfl hne
    · rcases hold q k hq with rfl | ⟨hq, -⟩
      · exact absurd heq hne
      · exact h.apart p q l k hp hq heq hne
  agrees := hagrees
  fresh := hfresh

theorem storage_cleared (hc : Cleared m m') (hp : m'.heap.payload? p = some (.list l)) :
    m'.heap.storage l.items = m.heap.storage l.items := by
  rcases hc.sound.items hp with hnull | ⟨es, hes⟩
  · rw [hnull]
    rfl
  · rw [storage_eq hes, storage_eq (hc.old _ _ hes)]

theorem cleared (h : Represents c m) (hc : Cleared m m') : Represents c m' := by
  refine h.of_old hc.sound (fun p l hp => .inr ⟨hc.old p _ hp, storage_cleared hc hp⟩) (fun p hp => ?_) fun a ha => ?_
  · cases hread : m'.heap.payload? p with
    | none =>
      -- only null leads nowhere and yet does not dangle
      obtain rfl : p = .null := by
        rcases hp with hnull | hsome
        · exact hnull
        · rw [hread] at hsome
          cases hsome
      exact h.agrees _ (live_null _)
    | some content =>
      have hold := hc.old p content hread
      rw [h.agrees p (live_of_payload? hold)]
      refine (datum?_congr (hread.trans hold.symm) fun l hl => ?_).symm
      exact storage_cleared hc (hread.trans (hold.symm.trans hl))
  · exact h.fresh a (hc.next ▸ ha)

theorem storage_grant (h : m.Sound) (hp : m.heap.payload? p = some (.list l)) :
    (m.grant size content).2.heap.storage l.items = m.heap.storage l.items := by
  unfold storage
  rw [h.payload?_grant]
  rcases h.items hp with hnull | ⟨es, hes⟩
  · exact hnull ▸ live_null _
  · exact live_of_payload? hes

theorem payload?_granted (m : Memory) (size : Nat) (content : Payload) (p : Pointer) :
    (m.grant size content).2.heap.payload? p = if p = .chunk m.heap.next then some content else m.heap.payload? p :=
  payload?_push _ _ _ _

theorem grant (h : Represents c m) (size : Nat) (hrefers : ∀ q, m.heap.Refers content q → m.heap.Live q)
    (hlist : ∀ l, content = .list l → l = ⟨0, 0, .null⟩) :
    Represents (c.put (.chunk m.heap.next) (m.heap.view content)) (m.grant size content).2 := by
  have hsound : (m.grant size content).2.Sound := h.sound.grant hrefers fun l hl => by rw [hlist l hl]
  refine h.of_old hsound (fun p l hp => ?_) (fun p hp => ?_) fun a ha => ?_
  · rw [payload?_granted] at hp
    split at hp
    · exact .inl (hlist l (Option.some.inj hp))
    · exact .inr ⟨hp, storage_grant h.sound hp⟩
  · by_cases hnew : p = .chunk m.heap.next
    · rw [hnew, Store.put_self, datum?, payload?_granted, if_pos rfl]
      cases content with
      | list l =>
        rw [hlist l rfl]
        rfl
      | _ => rfl
    · have hread : (m.grant size content).2.heap.payload? p = m.heap.payload? p := by
        rw [payload?_granted, if_neg hnew]
      rw [Store.put_of_ne _ _ hnew, h.agrees p ((live_congr hread).mp hp)]
      exact (datum?_congr hread fun l hl => storage_grant h.sound hl).symm
  · have ha : m.heap.next + 1 ≤ a := ha
    rw [Store.put_of_ne _ _ (by simp only [ne_eq, Pointer.chunk.injEq]; omega)]
    exact h.fresh a (by omega)

theorem withRoots (h : Represents c m) (hsound : Sound { m with roots := r }) : Represents c { m with roots := r } :=
  ⟨hsound, h.shaped, h.apart, h.agrees, h.fresh⟩

theorem withSlots {slots : Array Value} (h : Represents c m) (hsound : Sound { m with slots := slots }) :
    Represents c { m with slots := slots } :=
  ⟨hsound, h.shaped, h.apart, h.agrees, h.fresh⟩

theorem rewritten (h : Represents c m) (len : Nat) (es' : Array Boxed) (hsound : m'.Sound)
    (hnext : m'.heap.next = m.heap.next) (hlist : m.heap.payload? (.chunk a) = some (.list l))
    (hraw : m.heap.payload? (.chunk n) = some (.raw es))
    (hown : ∀ p k, m.heap.payload? p = some (.list k) → k.items = .chunk n → p = .chunk a)
    (hread : ∀ p, m'.heap.payload? p = if p = .chunk a then some (.list ⟨len, es'.size, .chunk n⟩)
      else if p = .chunk n then some (.raw es') else m.heap.payload? p) (hcap : IsCapacity es'.size len)
    (hbound : es'.size * anySize ≤ hostLimit) :
    Represents (c.put (.chunk a) (some (.list es'.size (es'.toList.take len)))) m' := by
  have hne : Pointer.chunk n ≠ .chunk a := fun he => by
    rw [he, hlist] at hraw
    cases hraw
  have hstorage : m'.heap.storage (.chunk n) = es' := storage_eq (by rw [hread, if_neg hne, if_pos rfl])
  -- the lists of the new memory are this one and the others of the old one
  have hlists : ∀ {p k}, m'.heap.payload? p = some (.list k) → p = .chunk a ∧ k = ⟨len, es'.size, .chunk n⟩ ∨
        p ≠ .chunk a ∧ m.heap.payload? p = some (.list k) ∧ k.items ≠ .chunk n := by
    intro p k hp
    rw [hread] at hp
    split at hp
    next heq => exact .inl ⟨heq, (Payload.list.inj (Option.some.inj hp)).symm⟩
    next hpa =>
      split at hp
      · cases hp
      · exact .inr ⟨hpa, hp, fun hitems => hpa (hown p k hp hitems)⟩
  have hsame : ∀ {p k}, m.heap.payload? p = some (.list k) → k.items ≠ .chunk n →
      m'.heap.storage k.items = m.heap.storage k.items := by
    intro p k hp hitems
    unfold storage
    rw [hread, if_neg, if_neg hitems]
    intro heq
    rcases h.sound.items hp with hnull | ⟨es, hes⟩
    · rw [hnull] at heq
      cases heq
    · rw [heq, hlist] at hes
      cases hes
  refine ⟨hsound, fun p k hp => ?_, fun p q k₁ k₂ hp hq heq hnull => ?_, fun p hp => ?_, fun b hb => ?_⟩
  · rcases hlists hp with ⟨-, rfl⟩ | ⟨-, hp, hitems⟩
    · exact ⟨hcap, congrArg Array.size hstorage, hbound⟩
    · exact (h.shaped p k hp).congr (hsame hp hitems)
  · rcases hlists hp with ⟨rfl, rfl⟩ | ⟨-, hp, hp'⟩
    · rcases hlists hq with ⟨rfl, -⟩ | ⟨-, -, hq'⟩
      · rfl
      · exact absurd heq.symm hq'
    · rcases hlists hq with ⟨-, rfl⟩ | ⟨-, hq, -⟩
      · exact absurd heq hp'
      · exact h.apart p q k₁ k₂ hp hq heq hnull
  · by_cases hpa : p = .chunk a
    · rw [hpa, Store.put_self, datum?, hread, if_pos rfl]
      simp only [Option.bind_some, view, elements, hstorage]
    · rw [Store.put_of_ne _ _ hpa]
      by_cases hpn : p = .chunk n
      · rw [hpn, h.agrees _ (live_of_payload? hraw), datum?, datum?, hraw, hread, if_neg hne, if_pos rfl]
        rfl
      · have hold : m'.heap.payload? p = m.heap.payload? p := by rw [hread, if_neg hpa, if_neg hpn]
        rw [h.agrees p ((live_congr hold).mp hp)]
        refine (datum?_congr hold fun k hk => hsame hk fun hitems => ?_).symm
        exact hpa (hown p k hk hitems)
  · have hlt := h.sound.lt_next hlist
    rw [Store.put_of_ne _ _ (by simp only [ne_eq, Pointer.chunk.injEq]; omega)]
    exact h.fresh b (hnext ▸ hb)

end Represents

end Memory

end Blockwork
