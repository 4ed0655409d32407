import Blockwork.Proofs.Rooting.Frames
import Blockwork.Proofs.Rooting.Requests

/-! # Pointers that roots keep alive
Roots hold their temporaries, what their named variables hold, and what is boxed in an `any` they hold. -/

namespace Blockwork

open Session Entry Value

/-- Whether a value holds its pointers, if any, as a register or a variable does. -/
def Value.Direct (v : Value) : Prop :=
  ∀ p ∈ v.refs, p = v.pointer

theorem Value.direct_of_refs {v : Value} (h : v.refs = []) : v.Direct := by
  intro p hp
  rw [h] at hp
  cases hp

namespace Memory

inductive Held (m : Memory) (r : Roots) : Pointer → Prop where
  | null : m.Held r .null
  | static (s : Static) : m.Held r (.static s)
  | temp {p : Pointer} : p ∈ r.temps → m.Held r p
  | named {i : Nat} : i ∈ r.named → m.Held r (m.slot i).pointer
  | inside {p q : Pointer} : m.Held r p → q ∈ (m.heap.boxed p).pointers → m.Held r q

def HeldValue (m : Memory) (r : Roots) (v : Value) : Prop :=
  ∀ p ∈ v.refs, m.Held r p

structure Kept (r : Roots) (m m' : Memory) : Prop where
  slot : ∀ i ∈ r.named, m'.slot i = m.slot i
  boxed : ∀ p, m.Held r p → m'.heap.boxed p = m.heap.boxed p

namespace Held

variable {m m' : Memory} {r r' : Roots} {p q : Pointer} {v : Value}

theorem mono (hr : r.Sub r') (h : m.Held r p) : m.Held r' p := by
  induction h with
  | null => exact .null
  | static s => exact .static s
  | temp hp => exact .temp (hr.temps _ hp)
  | named hi => exact .named (hr.named _ hi)
  | inside _ hq ih => exact .inside ih hq

theorem kept (hk : Kept r m m') (h : m.Held r p) : m'.Held r p := by
  induction h with
  | null => exact .null
  | static s => exact .static s
  | temp hp => exact .temp hp
  | named hi =>
    rw [← hk.slot _ hi]
    exact .named hi
  | inside hp hq ih =>
    refine .inside ih ?_
    rw [hk.boxed _ hp]
    exact hq

theorem safe (hr : r.Sub m.roots) (h : m.Held r p) : m.Safe p := by
  induction h with
  | null => exact Or.inl rfl
  | static s => exact Or.inr (Or.inl ⟨s, rfl⟩)
  | temp hp => exact Or.inr (Or.inr (.root (.temp (hr.temps _ hp))))
  | @named i hi =>
    by_cases hnull : (m.slot i).pointer = .null
    · exact Or.inl hnull
    · exact Or.inr (Or.inr (.root (.named (hr.named _ hi) hnull)))
  | @inside p q _ hq ih =>
    unfold Heap.boxed at hq
    split at hq
    next v hread => exact ih.refers hread (Heap.refers_any.mpr hq)
    next => cases hq

theorem pointer (h : m.HeldValue r v) : m.Held r v.pointer := by
  cases v with
  | string p | list p | any p => exact h p List.mem_cons_self
  | _ => exact .null

theorem element (h : m.HeldValue r v) (hp : p ∈ v.toElement.pointers) : m.Held r p := by
  cases v with
  | element b => exact h p hp
  | _ => cases hp

theorem of_direct (hd : v.Direct) (h : m.Held r v.pointer) : m.HeldValue r v := fun p hp => by
  rw [hd p hp]
  exact h

theorem boxed (h : m.Held r p) (hq : m.heap.boxed p = .string q ∨ m.heap.boxed p = .list q) : m.Held r q := by
  by_cases hnull : q = .null
  · rw [hnull]
    exact .null
  · exact .inside h (Heap.mem_pointers.mpr ⟨hnull, hq⟩)

end Held

theorem HeldValue.mono {m : Memory} (hr : r.Sub r') (h : m.HeldValue r v) :
    m.HeldValue r' v := fun p hp => (h p hp).mono hr

theorem HeldValue.kept (hk : Kept r m m') (h : m.HeldValue r v) : m'.HeldValue r v := fun p hp => (h p hp).kept hk

theorem HeldValue.of_refs {m : Memory} (h : v.refs = []) : m.HeldValue r v := by
  intro p hp
  rw [h] at hp
  cases hp

namespace Kept

variable {m m' : Memory} {r r' : Roots}

theorem refl (r : Roots) (m : Memory) : Kept r m m := ⟨fun _ _ => rfl, fun _ _ => rfl⟩

theorem mono (hr : r.Sub r') (h : Kept r' m m') : Kept r m m' :=
  ⟨fun i hi => h.slot i (hr.named i hi), fun p hp => h.boxed p (hp.mono hr)⟩

end Kept

structure After (m m' : Memory) : Prop where
  sound : m'.Sound
  slots : m'.slots = m.slots
  named : m'.roots.named = m.roots.named
  sub : m.roots.Sub m'.roots
  live : ∀ p, m.Safe p → m'.heap.Live p
  boxed : ∀ p, m.Safe p → m'.heap.boxed p = m.heap.boxed p

theorem After.kept (h : After m m') (hr : r.Sub m.roots) : Kept r m m' :=
  ⟨fun i _ => slot_congr h.slots i, fun p hp => h.boxed p (hp.safe hr)⟩

theorem After.refl (h : m.Sound) : After m m :=
  ⟨h, rfl, rfl, .refl _, fun _ hp => hp.live h, fun _ _ => rfl⟩

theorem boxed_congr {h h' : Heap} (hp : h'.payload? p = h.payload? p) : h'.boxed p = h.boxed p := by
  unfold Heap.boxed
  rw [hp]

theorem Cleared.after (h : Cleared m m') (hm : m.Sound) : After m m' :=
  ⟨h.sound, h.slots, by rw [h.roots], h.roots ▸ .refl _, fun _ hp => h.live hm hp,
    fun p hp => boxed_congr (h.kept p hp)⟩

theorem Cleared.after_grant (h : Cleared m m') (hm : m.Sound)
    (hcontent : ∀ q, m'.heap.Refers content q → m'.heap.Live q) (hlist : ∀ l, content = .list l → l.items = .null) :
    After m (m'.grant size content).2 where
  sound := h.sound.grant hcontent hlist
  slots := h.slots
  named := by simp [grant, Roots.addTemp, h.roots]
  sub := by
    have hsub : m'.roots.Sub (m'.roots.addTemp (.chunk m'.heap.next)) := (Roots.Sub.refl _).addTemp _
    rw [h.roots] at hsub
    exact h.roots ▸ hsub
  live := fun p hp => h.sound.live_grant (h.live hm hp)
  boxed := fun p hp => by
    rw [boxed_congr (h.sound.payload?_grant (h.live hm hp)), boxed_congr (h.kept p hp)]

/-! ### Changes of lists -/

theorem boxed_write {h : Heap} (hold : h.payload? (.chunk a) = some old) (hbox : ∀ v, old ≠ .any v)
    (hbox' : ∀ v, content ≠ .any v) (p : Pointer) : (h.write a content).boxed p = h.boxed p := by
  by_cases hp : p = .chunk a
  · subst hp
    simp only [Heap.boxed, Heap.payload?_overwrite hold, hold, if_true]
    cases old <;> cases content <;> first | rfl | exact absurd rfl (hbox _) | exact absurd rfl (hbox' _)
  · simp only [Heap.boxed, Heap.payload?_overwrite hold, hp, if_false]

namespace After

variable {m m' : Memory}

theorem write (h : After m m') (hold : m'.heap.payload? (.chunk a) = some old) (hbox : ∀ v, old ≠ .any v)
    (hbox' : ∀ v, content ≠ .any v) (hsound : Sound { m' with heap := m'.heap.write a content }) :
    After m { m' with heap := m'.heap.write a content } :=
  ⟨hsound, h.slots, h.named, h.sub, fun p hp => live_write.mpr (h.live p hp),
    fun p hp => (boxed_write hold hbox hbox' p).trans (h.boxed p hp)⟩

theorem writeEntry (h : After m m') (hraw : m'.heap.payload? (.chunk a) = some (.raw es))
    (hv : ∀ p ∈ v.pointers, m.Safe p) :
    After m { m' with heap := m'.heap.write a (.raw (es.setIfInBounds i v)) } :=
  h.write hraw nofun nofun (h.sound.writeEntry hraw fun p hp => h.live p (hv p hp))

theorem writeHeader (h : After m m') (hlist : m'.heap.payload? (.chunk a) = some (.list l))
    (hitems : l'.items = .null ∨ ∃ es, m'.heap.payload? l'.items = some (.raw es))
    (hstored : ∀ q, m'.heap.Refers (.list l') q → m'.heap.Live q) :
    After m { m' with heap := m'.heap.write a (.list l') } :=
  h.write hlist nofun nofun (h.sound.writeHeader hlist hitems hstored)

theorem append (h : After m m') (hlist : m'.heap.payload? (.chunk a) = some (.list l))
    (hraw : m'.heap.payload? (.chunk n) = some (.raw es))
    (hold : ∀ i w, i < len → es[i]? = some w → ∀ p ∈ w.pointers, m'.heap.Live p) (hv : ∀ p ∈ v.pointers, m.Safe p) :
    After m
      { m' with
        heap := (m'.heap.write n (.raw (es.setIfInBounds len v))).write a (.list ⟨len + 1, cap, .chunk n⟩) } := by
  have hne : a ≠ n := by
    rintro rfl
    rw [hraw] at hlist
    cases hlist
  have hread : (m'.heap.write n (.raw (es.setIfInBounds len v))).payload? (.chunk n) =
      some (.raw (es.setIfInBounds len v)) := by
    rw [Heap.payload?_write, if_pos rfl, hraw, Option.map_some]
  have hheader : (m'.heap.write n (.raw (es.setIfInBounds len v))).payload? (.chunk a) = some (.list l) := by
    rw [Heap.payload?_write, if_neg (by simpa using hne), hlist]
  have hentry : After m { m' with heap := m'.heap.write n (.raw (es.setIfInBounds len v)) } := h.writeEntry hraw hv
  refine hentry.writeHeader hheader (Or.inr ⟨_, hread⟩) fun q hq => live_write.mpr ?_
  rcases Heap.refers_list hq with rfl | ⟨items, i, w, hitems, hi, hw, hp⟩
  · exact Heap.live_of_payload? hraw
  · have heq : items = es.setIfInBounds len v := by
      have := hitems.symm.trans hread
      cases this
      rfl
    subst heq
    rw [Array.getElem?_setIfInBounds] at hw
    split at hw
    · split at hw
      · cases hw
        exact h.live q (hv q hp)
      · cases hw
    next hlen =>
      have hi : i < len + 1 := hi
      exact hold i w (by omega) hw q hp

end After

end Memory

namespace Session

open Memory Heap

variable {s : Session}

theorem cleared_room (hm : s.memory.Sound) (h : m = s.memory ∨ m = s.memory.makeRoom size) : Cleared s.memory m := by
  rcases h with rfl | rfl
  · exact .refl hm
  · exact hm.cleared_makeRoom size

theorem after_alloc (hm : s.memory.Sound) (hcontent : ∀ q, s.memory.heap.Refers content q → s.memory.Safe q)
    (hlist : ∀ l, content = .list l → l.items = .null) : After s.memory (s.alloc size content).2.memory ∧
      ∀ q, (s.alloc size content).1 = some q → q ∈ (s.alloc size content).2.memory.roots.temps := by
  obtain ⟨m, hroom, hcase⟩ := s.alloc_cases size content
  have hclear := cleared_room hm hroom
  rcases hcase with hok | ⟨e, herr⟩
  · rw [hok]
    refine ⟨hclear.after_grant hm (fun q hq => hclear.live hm (hcontent q (hq.congr ?_))) hlist, ?_⟩
    · intro l hl
      rw [hlist l hl]
      rfl
    · rintro q ⟨⟩
      simp [grant, Roots.addTemp]
  · rw [herr]
    refine ⟨?_, fun q hq => (by cases hq)⟩
    rw [fail_memory]
    exact hclear.after hm

theorem after_setEntry (h : After m s.memory)
    (hitems : items = .null ∨ ∃ es, s.memory.heap.payload? items = some (.raw es)) (hv : ∀ p ∈ v.pointers, m.Safe p) :
    After m (s.setEntry items i v).memory := by
  unfold setEntry
  split
  next a =>
    rcases hitems with hnull | ⟨es, hes⟩
    · cases hnull
    · have hstorage : s.memory.heap.storage (.chunk a) = es := by
        unfold storage
        rw [hes]
      rw [hstorage]
      exact h.writeEntry hes hv
  next => exact h

theorem after_listSet (hm : s.memory.Sound) (hv : ∀ q ∈ v.pointers, s.memory.Safe q) :
    After s.memory (s.listSet p index v).memory := by
  unfold listSet
  split
  next a l hread =>
    split
    · exact after_setEntry (.refl hm) (hm.items hread) hv
    · exact .refl hm
  next => exact .refl hm

theorem mem_storageOf {cap i : Nat} (h : (storageOf cap old)[i]? = some v) : v ∈ old ∨ v = .nothing := by
  have hmem := Array.mem_of_getElem? h
  simp only [storageOf, List.mem_toArray, List.mem_append, List.mem_replicate] at hmem
  exact hmem.imp id And.right

theorem after_appendAt {a : Nat} (hm : s.memory.Sound) (hp : s.memory.Safe (.chunk a))
    (hread : s.memory.heap.payload? (.chunk a) = some (.list l)) (hv : ∀ q ∈ v.pointers, s.memory.Safe q) :
    After s.memory (s.appendAt a l v).memory := by
  have hold : ∀ {w : Boxed}, w ∈ s.memory.heap.elements l → ∀ q ∈ w.pointers, s.memory.Safe q := by
    intro w hw q hq
    obtain ⟨items, i, hitems, hi, hget⟩ := mem_elements.mp hw
    exact hp.refers hread (refers_element hitems hi hget hq)
  unfold appendAt
  split
  · obtain ⟨m, hroom, hok | ⟨e, herr⟩⟩ := s.alloc_cases (grownSize l) (s.grown l)
    · have hclear := cleared_room hm hroom
      have hgrant : After s.memory (m.grant (grownSize l) (s.grown l)).2 :=
        hclear.after_grant hm (fun q hq => by cases hq) nofun
      have hnew : (m.grant (grownSize l) (s.grown l)).2.heap.payload?
          (.chunk m.heap.next) = some (s.grown l) := by
        simp only [grant, payload?_push, if_true]
      have hlist : (m.grant (grownSize l) (s.grown l)).2.heap.payload?
          (.chunk a) = some (.list l) := by
        rw [hclear.sound.payload?_grant (hclear.live hm hp), hclear.kept _ hp, hread]
      simp only [hok, setEntry, setHeader, storage, hnew]
      refine hgrant.append hlist hnew (fun i w _ hw q hq => ?_) hv
      rcases mem_storageOf hw with hw | rfl
      · exact hgrant.live q (hold hw q hq)
      · cases hq
    · simp only [herr, fail_memory]
      exact (cleared_room hm hroom).after hm
  · rcases hm.items hread with hnull | ⟨es, hes⟩
    · simp only [setEntry, hnull, setHeader]
      refine (After.refl hm).writeHeader hread (Or.inl rfl) fun q hq => ?_
      rcases refers_list hq with rfl | ⟨items, i, w, hitems, -, -, -⟩
      · exact live_null _
      · cases hitems
    · cases hitems : l.items with
      | null => simp [hitems, payload?] at hes
      | static st => cases st <;> simp [hitems, payload?, Static.payload] at hes
      | chunk n =>
        rw [hitems] at hes
        simp only [setEntry, setHeader, storage, hes]
        refine (After.refl hm).append hread hes (fun i w hi hw q hq => ?_) hv
        exact hm.refers hread (refers_element (by rw [hitems]; exact hes) hi hw hq)

theorem after_listAdd (hm : s.memory.Sound) (hp : s.memory.Safe p) (hv : ∀ q ∈ v.pointers, s.memory.Safe q) :
    After s.memory (s.listAdd p v).memory := by
  unfold listAdd
  split
  next a l hread => exact after_appendAt hm hp hread hv
  next => exact .refl hm

end Session

open Memory

def Request.Sane (m : Memory) : Request → Prop
  | none => True
  | collect => True
  | alloc _ content _ =>
    (∀ q, m.heap.Refers content q → m.Safe q) ∧ ∀ l, content = .list l → l.items = .null
  | add p v => m.Safe p ∧ ∀ q ∈ v.pointers, m.Safe q
  | set p _ v => m.Safe p ∧ ∀ q ∈ v.pointers, m.Safe q

theorem Request.after {q : Request} (hm : s.memory.Sound) (hq : q.Sane s.memory) :
    After s.memory (q.carry s).2.memory ∧ (q.carry s).2.memory.Held (q.carry s).2.memory.roots (q.carry s).1 := by
  cases q with
  | none => exact ⟨.refl hm, .null⟩
  | collect => exact ⟨hm.cleared_collect.after hm, .null⟩
  | alloc size content fallback =>
    have halloc : After s.memory (s.alloc size content).2.memory ∧
        ∀ p, (s.alloc size content).1 = some p → p ∈ (s.alloc size content).2.memory.roots.temps :=
      after_alloc hm hq.1 hq.2
    obtain ⟨hafter, hgiven⟩ := halloc
    simp only [carry, allocOr]
    split
    next p s' heq =>
      rw [heq] at hafter hgiven
      exact ⟨hafter, .temp (hgiven p rfl)⟩
    next s' heq =>
      rw [heq] at hafter
      exact ⟨hafter, .static fallback⟩
  | add p v => exact ⟨after_listAdd hm hq.1 hq.2, .null⟩
  | set p i v => exact ⟨after_listSet hm hq.2, .null⟩

/-! ### Entry points -/

section Entries

variable {s : Session} {args : List Value} {r : Roots}

theorem heldValue_argument {m : Memory} (h : ∀ v ∈ args, m.HeldValue r v) (i : Nat) :
    m.HeldValue r (argument args i) := by
  unfold argument
  rw [List.getD_eq_getElem?_getD]
  cases hi : args[i]? with
  | none => exact .of_refs rfl
  | some v => exact h v (List.mem_of_getElem? hi)

theorem Session.sane_makes (s : Session) (b : Bytes) : (s.makes b).request.Sane m := by
  refine ⟨fun q hq => ?_, nofun⟩
  cases hq

theorem Session.sane_makesList (s : Session) : s.makesList.request.Sane m := by
  refine ⟨fun q hq => ?_, fun l hl => ?_⟩
  · rcases Heap.refers_list hq with rfl | ⟨items, i, v, hitems, -, -, -⟩
    · exact Or.inl rfl
    · cases hitems
  · cases hl
    rfl

theorem Session.sane_boxes (s : Session) (h : ∀ q ∈ v.pointers, m.Safe q) : (s.boxes v).request.Sane m := by
  unfold boxes
  split
  · trivial
  · exact ⟨fun q hq => h q (Heap.refers_any.mp hq), nofun⟩

theorem Session.safe_elementAt (h : s.memory.Safe p) (hq : q ∈ (s.elementAt p index).pointers) : s.memory.Safe q := by
  unfold elementAt at hq
  split at hq
  · cases hq
  · cases hget : (s.memory.heap.listElements p)[index.toInt.toNat]? with
    | none =>
      rw [hget] at hq
      cases hq
    | some v =>
      rw [hget] at hq
      obtain ⟨items, i, hitems, hi, hv⟩ := Heap.mem_elements.mp (List.mem_of_getElem? hget)
      unfold Heap.listHeader at hitems hi
      split at hitems
      next l hread =>
        simp only [hread] at hi
        exact h.refers hread (Heap.refers_element hitems hi hv hq)
      next => cases hitems

/-- The pointers that an entry point puts into a list or a box are safe, and so is the list. -/
def Entry.GivenSafe (m : Memory) (args : List Value) : Entry → Prop
  | .listAdd => m.Safe (argument args 0).pointer ∧ ∀ q ∈ (argument args 1).toElement.pointers, m.Safe q
  | .listSet => m.Safe (argument args 0).pointer ∧ ∀ q ∈ (argument args 2).toElement.pointers, m.Safe q
  | .listGet | .anyFromString | .anyFromList => m.Safe (argument args 0).pointer
  | _ => True

theorem Entry.GivenSafe.sane {e : Entry} (h : e.GivenSafe s.memory args) : (e.plan args s).request.Sane s.memory := by
  cases e with
  | anyFromString =>
    refine s.sane_boxes fun q hq => ?_
    obtain ⟨-, rfl⟩ := Heap.mem_pointers_string.mp hq
    exact h
  | anyFromList =>
    refine s.sane_boxes fun q hq => ?_
    obtain ⟨-, rfl⟩ := Heap.mem_pointers_list.mp hq
    exact h
  | anyFromInteger | anyFromFloat | anyFromBool | anyFromColor => exact s.sane_boxes nofun
  | listGet => exact s.sane_boxes fun q hq => safe_elementAt h hq
  | stringFromAny =>
    simp only [plan]
    split
    · trivial
    · exact s.sane_makes _
  | listFromAny =>
    simp only [plan]
    split
    · trivial
    · exact s.sane_makesList
  | listNew => exact s.sane_makesList
  | listAdd | listSet => exact h
  | anyTypeName | stringFromLiteral | stringFromInteger | stringFromFloat | stringFromBool
  | stringFromColor | stringJoin | stringLetterIn | stringSubstring | stringChr =>
    exact s.sane_makes _
  | termInput | termGetChar => exact sane_makes _ _
  | _ => trivial

theorem Entry.sane_plan (e : Entry) (h : ∀ v ∈ args, s.memory.HeldValue s.memory.roots v) :
    (e.plan args s).request.Sane s.memory := by
  have hptr : ∀ i, s.memory.Safe (argument args i).pointer := fun i =>
    (Held.pointer (heldValue_argument h i)).safe (.refl _)
  have helem : ∀ i, ∀ q ∈ (argument args i).toElement.pointers, s.memory.Safe q := fun i q hq =>
    (Held.element (heldValue_argument h i) hq).safe (.refl _)
  refine Entry.GivenSafe.sane ?_
  cases e with
  | listAdd => exact ⟨hptr 0, helem 1⟩
  | listSet => exact ⟨hptr 0, helem 2⟩
  | listGet | anyFromString | anyFromList => exact hptr 0
  | _ => trivial

/-- What a call gives back is held in memory where its pointer and its arguments are. -/
structure Outcome (e : Entry) (m : Memory) (r : Roots) (v : Value) : Prop where
  direct : v.Direct
  held : m.Held r v.pointer
  plain : Flow.resultWord e = .plain → v.refs = []

theorem Outcome.of_refs (h : v.refs = []) : Outcome e m r v :=
  ⟨direct_of_refs h, Held.pointer (.of_refs h), fun _ => h⟩

theorem Outcome.of_pointer (he : e.signature.result = some .pointer) (hd : v.Direct) (h : m.Held r v.pointer) :
    Outcome e m r v := by
  refine ⟨hd, h, fun hplain => ?_⟩
  simp [Flow.resultWord, he] at hplain

theorem Value.direct_of_single {v : Value} (h : v.refs = [v.pointer]) : v.Direct := by
  intro p hp
  rw [h] at hp
  exact List.mem_singleton.mp hp

theorem Session.outcome_boxes (he : e.signature.result = some .pointer) (hp : m.Held r p) (s : Session) (v : Boxed) :
    Outcome e m r ((s.boxes v).result p) := by
  unfold boxes
  split
  · exact .of_pointer he (direct_of_single rfl) (.static _)
  · exact .of_pointer he (direct_of_single rfl) hp

theorem Entry.outcome_plan (e : Entry) (hp : m.Held r p) (h : ∀ q, s.memory.Held s.memory.roots q → m.Held r q)
    (ha : ∀ v ∈ args, s.memory.HeldValue s.memory.roots v) : Outcome e m r ((e.plan args s).result p) := by
  cases e with
  | anyNothing => exact .of_pointer rfl (direct_of_single rfl) (.static _)
  | anyFromInteger | anyFromFloat | anyFromBool | anyFromColor | anyFromString | anyFromList | listGet =>
    exact s.outcome_boxes rfl hp _
  | stringFromAny =>
    simp only [plan]
    split
    next q hq =>
      exact .of_pointer rfl (direct_of_single rfl) (h q ((Held.pointer (heldValue_argument ha 0)).boxed (.inl hq)))
    next => exact .of_pointer rfl (direct_of_single rfl) hp
  | listFromAny =>
    simp only [plan]
    split
    next q hq =>
      exact .of_pointer rfl (direct_of_single rfl) (h q ((Held.pointer (heldValue_argument ha 0)).boxed (.inr hq)))
    next => exact .of_pointer rfl (direct_of_single rfl) hp
  | listNew => exact .of_pointer rfl (direct_of_single rfl) hp
  | anyTypeName | stringFromLiteral | stringFromInteger | stringFromFloat | stringFromBool
  | stringFromColor | stringJoin | stringLetterIn | stringSubstring | stringChr | termInput
  | termGetChar => exact .of_pointer rfl (direct_of_single rfl) hp
  | _ => exact .of_refs rfl

theorem Entry.run_held (ho : e.ordinary = true) (hm : s.memory.Sound)
    (ha : ∀ v ∈ args, s.memory.HeldValue s.memory.roots v) : After s.memory (e.run args s).2.memory ∧
      Outcome e (e.run args s).2.memory (e.run args s).2.memory.roots (e.run args s).1 := by
  rw [e.run_eq_carry ho]
  have hsane : (e.plan args s).request.Sane ((e.plan args s).front s).memory := e.sane_plan ha
  obtain ⟨hafter, hgiven⟩ := Request.after (s := (e.plan args s).front s) hm hsane
  refine ⟨hafter, e.outcome_plan hgiven (fun q hq => ?_) ha⟩
  exact (hq.kept (hafter.kept (.refl _))).mono hafter.sub

end Entries

end Blockwork
