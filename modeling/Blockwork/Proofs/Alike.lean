import Blockwork.Proofs.Rooting.Liveness
import Blockwork.Proofs.Trimming.Roots

/-! # Memory that collections leave alike
Two memories are alike when roots, variables and the next address are the same and they agree on every chunk that
both still have. -/

namespace Blockwork

open Entry Heap Request

namespace Memory

/-- The same roots, variables and next address, and the same content in every chunk that both have. -/
structure Alike (m m' : Memory) : Prop where
  roots : m'.roots = m.roots
  slots : m'.slots = m.slots
  next : m'.heap.next = m.heap.next
  agree : ∀ p content content', m.heap.payload? p = some content → m'.heap.payload? p = some content' →
    content' = content

namespace Alike


theorem new (low limit low' limit' : Nat) : Alike (.new low limit) (.new low' limit') where
  roots := rfl
  slots := rfl
  next := rfl
  agree := fun p content content' hp hp' => by
    cases p with
    | null => cases hp
    | static => exact Option.some.inj (hp'.symm.trans hp)
    | chunk => cases hp

theorem read (h : Alike m m') (hp : m.heap.Live p) (hp' : m'.heap.Live p) :
    m'.heap.payload? p = m.heap.payload? p := by
  rcases hp with rfl | hsome
  · rfl
  · rcases hp' with rfl | hsome'
    · rfl
    · obtain ⟨content, hcontent⟩ := Option.isSome_iff_exists.mp hsome
      obtain ⟨content', hcontent'⟩ := Option.isSome_iff_exists.mp hsome'
      rw [hcontent, hcontent', h.agree p content content' hcontent hcontent']

theorem cleared (h : Alike m m') (hm : Cleared m n) (hm' : Cleared m' n') : Alike n n' where
  roots := by rw [hm.roots, hm'.roots, h.roots]
  slots := by rw [hm.slots, hm'.slots, h.slots]
  next := by rw [hm.next, hm'.next, h.next]
  agree := fun p content content' hp hp' => h.agree p _ _ (hm.old p _ hp) (hm'.old p _ hp')

theorem grant (h : Alike m m') (size : Nat) (content : Payload) :
    Alike (m.grant size content).2 (m'.grant size content).2 where
  roots := by simp only [Memory.grant, h.roots, h.next]
  slots := h.slots
  next := congrArg (· + 1) h.next
  agree := fun p old old' hp hp' => by
    simp only [Memory.grant, payload?_push, h.next] at hp hp'
    by_cases hnew : p = .chunk m.heap.next
    · rw [if_pos hnew] at hp hp'
      exact Option.some.inj (hp'.symm.trans hp)
    · rw [if_neg hnew] at hp hp'
      exact h.agree p old old' hp hp'

theorem write (h : Alike m m') (a : Nat) (content : Payload) :
    Alike { m with heap := m.heap.write a content } { m' with heap := m'.heap.write a content } where
  roots := h.roots
  slots := h.slots
  next := h.next
  agree := fun p old old' hp hp' => by
    simp only [payload?_write] at hp hp'
    by_cases hthere : p = .chunk a
    · rw [if_pos hthere] at hp hp'
      obtain ⟨-, -, rfl⟩ := Option.map_eq_some_iff.mp hp
      obtain ⟨-, -, rfl⟩ := Option.map_eq_some_iff.mp hp'
      rfl
    · rw [if_neg hthere] at hp hp'
      exact h.agree p old old' hp hp'

theorem withSlots (h : Alike m m') (f : Array Value → Array Value) :
    Alike { m with slots := f m.slots } { m' with slots := f m'.slots } where
  roots := h.roots
  slots := congrArg f h.slots
  next := h.next
  agree := h.agree

theorem withRoots (h : Alike m m') (r : Roots) : Alike { m with roots := r } { m' with roots := r } where
  roots := rfl
  slots := h.slots
  next := h.next
  agree := h.agree

theorem slot (h : Alike m m') (i : Nat) : m'.slot i = m.slot i :=
  slot_congr h.slots i

theorem storage (h : Alike m m') (hm : m.Sound) (hm' : m'.Sound) (hp : m.heap.payload? p = some (.list l))
    (hp' : m'.heap.payload? p = some (.list l)) : m'.heap.storage l.items = m.heap.storage l.items := by
  have hlive : ∀ {x : Memory}, (l.items = .null ∨ ∃ items, x.heap.payload? l.items = some (.raw items)) →
      x.heap.Live l.items := by
    rintro x (hnull | ⟨items, hitems⟩)
    · exact Or.inl hnull
    · exact live_of_payload? hitems
  unfold Heap.storage
  rw [h.read (hlive (hm.items hp)) (hlive (hm'.items hp'))]

theorem elements (h : Alike m m') (hm : m.Sound) (hm' : m'.Sound) (hp : m.heap.payload? p = some (.list l))
    (hp' : m'.heap.payload? p = some (.list l)) : m'.heap.elements l = m.heap.elements l := by
  unfold Heap.elements
  rw [h.storage hm hm' hp hp']

end Alike

end Memory

namespace Session

/-! ### Outside of memory -/

/-- The same but for memory, chance and time. -/
structure Beside (s s' : Session) : Prop where
  terminal : s'.terminal = s.terminal
  input : s'.input = s.input
  stop : s'.stop = s.stop
  abort : s'.abort = s.abort

namespace Beside


theorem shouldExit (h : Beside s s') : s'.shouldExit = s.shouldExit := by
  unfold Session.shouldExit
  rw [h.abort, h.stop]

theorem eq (h : Beside s s') : s' = s.atop s' := by
  obtain ⟨memory, terminal, input, stop, abort, entropy, clock⟩ := s'
  obtain ⟨rfl, rfl, rfl, rfl⟩ := h
  rfl

theorem send (h : Beside s s') (b : Bytes) : (s'.send b).1 = (s.send b).1 ∧ Beside (s.send b).2 (s'.send b).2 := by
  rw [h.eq, send_atop]
  exact ⟨rfl, rfl, rfl, rfl, rfl⟩

theorem onTerminal (h : Beside s s') (f : Terminal → Terminal) :
    Beside { s with terminal := f s.terminal } { s' with terminal := f s'.terminal } :=
  ⟨congrArg f h.terminal, h.input, h.stop, h.abort⟩

theorem withInput (h : Beside s s') (rest : Bytes) : Beside { s with input := rest } { s' with input := rest } :=
  ⟨h.terminal, rfl, h.stop, h.abort⟩

theorem print (h : Beside s s') (b : Bytes) :
    (s'.print b).1 = (s.print b).1 ∧ Beside (s.print b).2 (s'.print b).2 := by
  rw [h.eq, print_atop]
  exact ⟨rfl, rfl, rfl, rfl, rfl⟩

theorem control (h : Beside s s') (b : Bytes) : Beside (s.control b) (s'.control b) :=
  (h.send b).2

theorem placeCursor (h : Beside s s') (c : Cursor) : Beside (s.placeCursor c) (s'.placeCursor c) :=
  h.onTerminal fun t => { t with cursor := c }

theorem clearScreen (h : Beside s s') : Beside s.clearScreen s'.clearScreen := by
  rw [h.eq, clearScreen_atop]
  exact ⟨rfl, rfl, rfl, rfl⟩

end Beside

/-! ### Reading -/

/-- Everything that can be read through a pointer in the first session reads the same in the second. -/
structure ReadsAs (s s' : Session) (p : Pointer) : Prop where
  bytes : s'.bytes p = s.bytes p
  boxed : s'.boxed p = s.boxed p
  length : s'.listLength p = s.listLength p
  element : ∀ i, s'.elementAt p i = s.elementAt p i
  text : ∀ q, s.boxed p = .string q → s'.bytes q = s.bytes q
  list : ∀ q, s.boxed p = .list q → s'.listLength q = s.listLength q

theorem bytes_congr {s s' : Session} (h : s'.memory.heap.payload? p = s.memory.heap.payload? p) :
    s'.bytes p = s.bytes p := by
  unfold bytes Heap.bytes
  rw [h]

theorem header_congr {s s' : Session} (h : s'.memory.heap.payload? p = s.memory.heap.payload? p) :
    s'.memory.heap.listHeader p = s.memory.heap.listHeader p := by
  unfold listHeader
  rw [h]

end Session

theorem Memory.Alike.readsAs {s : Session} (h : s.memory.Alike s'.memory) (hm : s.memory.Sound)
    (hm' : s'.memory.Sound) (hp : s.memory.heap.Live p) (hp' : s'.memory.heap.Live p) : s.ReadsAs s' p := by
  have hread := h.read hp hp'
  have hboxed : s'.boxed p = s.boxed p := boxed_congr hread
  -- what stands in a box leads somewhere in the memory that has the box
  have hinside : ∀ {x : Session} {q : Pointer}, x.memory.Sound →
      (x.boxed p = .string q ∨ x.boxed p = .list q) → x.memory.heap.Live q := by
    intro x q hx hq
    by_cases hnull : q = .null
    · exact Or.inl hnull
    · have hmem : q ∈ (x.boxed p).pointers := mem_pointers.mpr ⟨hnull, hq⟩
      unfold Session.boxed Heap.boxed at hmem
      split at hmem
      next v hv => exact hx.refers hv (refers_any.mpr hmem)
      next => cases hmem
  have hbox : ∀ q, (s.boxed p = .string q ∨ s.boxed p = .list q) →
      s'.memory.heap.payload? q = s.memory.heap.payload? q := fun q hq =>
    h.read (hinside hm hq) (hinside hm' (by rw [hboxed]; exact hq))
  refine ⟨Session.bytes_congr hread, hboxed, ?_, fun i => ?_, fun q hq => ?_, fun q hq => ?_⟩
  · exact congrArg ListHeader.len (Session.header_congr hread)
  · have helements : s'.memory.heap.listElements p = s.memory.heap.listElements p := by
      unfold listElements
      rw [Session.header_congr hread]
      unfold listHeader
      split
      next l hl => exact h.elements hm hm' hl (hread.trans hl)
      next => rfl
    unfold Session.elementAt
    rw [helements]
  · exact Session.bytes_congr (hbox q (Or.inl hq))
  · exact congrArg ListHeader.len (Session.header_congr (hbox q (Or.inr hq)))

namespace Session.ReadsAs

variable {s : Session}

theorem integerOf (h : s.ReadsAs s' p) : s'.integerOf (s'.boxed p) = s.integerOf (s.boxed p) := by
  rw [h.boxed]
  cases hb : s.boxed p with
  | string q => exact congrArg Text.leadingInt (h.text q hb)
  | _ => rfl

theorem floatOf (h : s.ReadsAs s' p) : s'.floatOf (s'.boxed p) = s.floatOf (s.boxed p) := by
  rw [h.boxed]
  cases hb : s.boxed p with
  | string q => exact congrArg Text.leadingFloat (h.text q hb)
  | _ => rfl

theorem boolOf (h : s.ReadsAs s' p) : s'.boolOf (s'.boxed p) = s.boolOf (s.boxed p) := by
  rw [h.boxed]
  cases hb : s.boxed p with
  | string q => exact congrArg (fun b => !b.isEmpty) (h.text q hb)
  | _ => rfl

theorem colorOf (h : s.ReadsAs s' p) : s'.colorOf (s'.boxed p) = s.colorOf (s.boxed p) := by
  rw [h.boxed]
  cases hb : s.boxed p with
  | string q => exact congrArg (fun b => (Text.parseColor (Text.lossy b)).getD 0) (h.text q hb)
  | _ => rfl

theorem textOf (h : s.ReadsAs s' p) : s'.textOf (s'.boxed p) = s.textOf (s.boxed p) := by
  rw [h.boxed]
  cases hb : s.boxed p with
  | string q => exact h.text q hb
  | list q => exact congrArg Text.formatList (h.list q hb)
  | _ => rfl

theorem boxedEq (h : s.ReadsAs s' p) (h' : s.ReadsAs s' q) :
    s'.boxedEq (s'.boxed p) (s'.boxed q) = s.boxedEq (s.boxed p) (s.boxed q) := by
  rw [h.boxed, h'.boxed]
  cases hp : s.boxed p with
  | string a =>
    cases hq : s.boxed q with
    | string b => simp only [Session.boxedEq, h.text a hp, h'.text b hq]
    | _ => rfl
  | _ => cases s.boxed q <;> rfl

theorem elementOf (h : s.ReadsAs s' v.pointer) : s'.elementOf v = s.elementOf v := by
  cases v with
  | any => exact h.boxed
  | _ => rfl

end Session.ReadsAs

structure Plan.Same (pl pl' : Plan) : Prop where
  terminal : pl'.terminal = pl.terminal
  input : pl'.input = pl.input
  stop : pl'.stop = pl.stop
  request : pl'.request = pl.request
  result : pl'.result = pl.result

namespace Session.Beside


theorem asks (h : Beside s s') (q : Request) (result : Pointer → Value) :
    Plan.Same (s.asks q result) (s'.asks q result) :=
  ⟨h.terminal, h.input, h.stop, rfl, rfl⟩

theorem gives (h : Beside s s') (hv : v' = v) : Plan.Same (s.gives v) (s'.gives v') :=
  hv ▸ h.asks .none fun _ => v

theorem makes (h : Beside s s') (hb : b' = b) : Plan.Same (s.makes b) (s'.makes b') :=
  hb ▸ h.asks _ _

theorem boxes (h : Beside s s') (hv : v' = v) : Plan.Same (s.boxes v) (s'.boxes v') := by
  subst hv
  unfold Session.boxes
  split
  · exact h.gives rfl
  · exact h.asks _ _

theorem counts (h : Beside s s') (hb : b' = b) : Plan.Same (counts (s.print b)) (counts (s'.print b')) := by
  subst hb
  obtain ⟨hcount, hafter⟩ := h.print b'
  exact hafter.gives (by rw [hcount])

end Session.Beside

open Session

theorem Entry.plan_same {e : Entry} (hchance : e.isChance = false) (h : Beside s s')
    (hreads : ∀ i, s.ReadsAs s' (argument args i).pointer) : Plan.Same (e.plan args s) (e.plan args s') := by
  cases e with
  | random | unixTime => cases hchance
  | collect | listAdd | listSet => exact h.asks _ _
  | pollStop => exact h.gives (by rw [h.shouldExit])
  | sleep => exact h.gives (by simp only [Session.sleep, h.shouldExit])
  | anyFromInteger | anyFromFloat | anyFromBool | anyFromColor | anyFromString | anyFromList =>
    exact h.boxes rfl
  | integerFromAny => exact h.gives (congrArg Value.integer (hreads 0).integerOf)
  | floatFromAny => exact h.gives (congrArg Value.float (hreads 0).floatOf)
  | boolFromAny => exact h.gives (congrArg Value.bool (hreads 0).boolOf)
  | colorFromAny => exact h.gives (congrArg Value.color (hreads 0).colorOf)
  | stringFromAny =>
    have htext := (hreads 0).textOf
    simp only [plan, (hreads 0).boxed] at htext ⊢
    cases hb : s.boxed (argument args 0).pointer with
    | string => exact h.gives rfl
    | _ =>
      rw [hb] at htext
      exact h.makes htext
  | listFromAny =>
    simp only [plan, (hreads 0).boxed]
    cases s.boxed (argument args 0).pointer with
    | list => exact h.gives rfl
    | _ => exact h.asks _ _
  | anyIsEq => exact h.gives (congrArg Value.bool ((hreads 0).boxedEq (hreads 1)))
  | anyTypeName => exact h.makes (by rw [(hreads 0).boxed])
  | stringFromLiteral | stringFromInteger | stringFromFloat | stringFromBool | stringFromColor
  | stringChr => exact h.makes rfl
  | stringToInteger | stringToFloat | stringLength | stringOrd => exact h.gives (by rw [(hreads 0).bytes])
  | stringJoin => exact h.makes (by rw [(hreads 0).bytes, (hreads 1).bytes])
  | stringLetterIn => exact h.makes (by rw [(hreads 1).bytes])
  | stringSubstring => exact h.makes (by rw [(hreads 2).bytes])
  | stringIsEq => exact h.gives (by rw [(hreads 0).bytes, (hreads 1).bytes])
  | listNew => exact h.asks _ _
  | listGet => exact h.boxes ((hreads 0).element _)
  | listLength => exact h.gives (by rw [(hreads 0).length])
  | printLiteral | printInteger | printFloat | printBool | printColor => exact h.counts rfl
  | printString => exact h.counts (hreads 0).bytes
  | printList => exact h.counts (by rw [(hreads 0).length])
  | printAny => exact h.counts (hreads 0).textOf
  | termInput | termGetChar =>
    simp only [plan, h.input]
    exact (h.withInput _).makes rfl
  | termSetFgColor => exact (h.control _).gives rfl
  | termSetBgColor => exact ((h.control _).onTerminal fun t => { t with background := some _ }).gives rfl
  | termResetColor => exact ((h.control _).onTerminal fun t => { t with background := none }).gives rfl
  | termSetClearColor => exact (h.onTerminal fun t => { t with clearColor := some _ }).gives rfl
  | termClear => exact h.clearScreen.gives rfl
  | termSetCursor => exact ((h.control _).placeCursor _).gives rfl
  | termCursorX | termCursorY | termCursorMaxX | termCursorMaxY => exact h.gives (by rw [h.terminal])
  | _ => exact h.gives rfl

/-! ### Requests -/

namespace Session

def unaborted (s : Session) : Session :=
  { s with abort := none }

structure Alike (s s' : Session) : Prop extends Beside s s' where
  memory : s.memory.Alike s'.memory

theorem alloc_granted {s : Session} (hm : s.memory.Sound)
    (h : ∀ x, (s.unaborted.alloc size content).2.abort ≠ some (.outOfMemory x)) :
    ∃ m, s.memory.Cleared m ∧ s.alloc size content =
      (some (.chunk m.heap.next), { s with memory := (m.grant size content).2 }) := by
  obtain ⟨m, hroom, hok | ⟨e, herr⟩⟩ := s.memory.malloc_cases size content
  · refine ⟨m, cleared_room hm hroom, ?_⟩
    simp only [alloc, hok]
  · refine absurd ?_ (h e)
    simp only [alloc, unaborted, herr, fail, Option.isSome_none]
    rfl

theorem Alike.alloc (h : Alike s s') (hm : s.memory.Sound) (hm' : s'.memory.Sound)
    (hgrant : ∀ x, (s.unaborted.alloc size content).2.abort ≠ some (.outOfMemory x))
    (hgrant' : ∀ x, (s'.unaborted.alloc size content).2.abort ≠ some (.outOfMemory x)) :
    ∃ (a : Nat) (t t' : Session), s.alloc size content = (some (.chunk a), t) ∧
      s'.alloc size content = (some (.chunk a), t') ∧ Alike t t' ∧
      t.memory.heap.payload? (.chunk a) = some content ∧ t'.memory.heap.payload? (.chunk a) = some content := by
  obtain ⟨m, hclear, hone⟩ := alloc_granted hm hgrant
  obtain ⟨m', hclear', hother⟩ := alloc_granted hm' hgrant'
  have halike := h.memory.cleared hclear hclear'
  rw [halike.next] at hother
  refine ⟨m.heap.next, _, _, hone, hother, ⟨⟨h.terminal, h.input, h.stop, h.abort⟩, halike.grant size content⟩,
    ?_, ?_⟩
  · simp only [Memory.grant, payload?_push, if_true]
  · simp only [Memory.grant, payload?_push, halike.next, if_true]

theorem Alike.onHeap (h : Alike s s') (hheap : Memory.Alike { s.memory with heap } { s'.memory with heap := heap' }) :
    Alike { s with memory := { s.memory with heap } } { s' with memory := { s'.memory with heap := heap' } } :=
  ⟨⟨h.terminal, h.input, h.stop, h.abort⟩, hheap⟩

theorem Alike.setEntry (h : Alike s s') (hitems : s'.memory.heap.storage items = s.memory.heap.storage items)
    (i : Nat) (v : Boxed) : Alike (s.setEntry items i v) (s'.setEntry items i v) := by
  cases items with
  | null | static => exact h
  | chunk a =>
    simp only [Session.setEntry, hitems]
    exact h.onHeap (h.memory.write a _)

theorem Alike.setHeader (h : Alike s s') (a : Nat) (l : ListHeader) : Alike (s.setHeader a l) (s'.setHeader a l) :=
  h.onHeap (h.memory.write a _)

end Session

def Request.Granted (q : Request) (s : Session) : Prop :=
  ∀ x, (q.carry s.unaborted).2.abort ≠ some (.outOfMemory x)

section Requests

variable {s : Session}

theorem Session.storage_granted (hfull : l.len = l.cap)
    (h : ∀ x, (s.unaborted.appendAt a l v).abort ≠ some (.outOfMemory x)) :
    ∀ x, (s.unaborted.alloc (grownSize l) (s.grown l)).2.abort ≠ some (.outOfMemory x) := by
  intro x hx
  obtain ⟨m, -, hok | ⟨e, herr⟩⟩ := s.unaborted.alloc_cases (grownSize l) (s.grown l)
  · rw [hok] at hx
    cases hx
  · have hrefused : s.unaborted.appendAt a l v = (s.unaborted.alloc (grownSize l) (s.grown l)).2 := by
      unfold appendAt
      rw [if_pos hfull, herr]
      simp only [unaborted] at herr ⊢
      rw [herr]
    exact h x ((congrArg abort hrefused).trans hx)

theorem Session.Alike.listAdd (h : Session.Alike s s') (hm : s.memory.Sound) (hm' : s'.memory.Sound)
    (hp : s.memory.heap.Live p) (hp' : s'.memory.heap.Live p) (hgrant : (add p v).Granted s)
    (hgrant' : (add p v).Granted s') : Session.Alike (s.listAdd p v) (s'.listAdd p v) := by
  have hread := h.memory.read hp hp'
  simp only [Request.Granted, carry] at hgrant hgrant'
  cases p with
  | null | static => exact h
  | chunk a =>
    cases hcontent : s.memory.heap.payload? (.chunk a) with
    | none =>
      simp only [Session.listAdd, hcontent, hread]
      exact h
    | some content =>
      rw [hcontent] at hread
      cases content with
      | list l =>
        have helements := h.memory.elements hm hm' hcontent hread
        have hcontent₀ : s.unaborted.memory.heap.payload? (.chunk a) = some (.list l) := hcontent
        have hread₀ : s'.unaborted.memory.heap.payload? (.chunk a) = some (.list l) := hread
        simp only [Session.listAdd, hcontent₀, hread₀] at hgrant hgrant'
        simp only [Session.listAdd, hcontent, hread]
        by_cases hfull : l.len = l.cap
        · have hnew' := storage_granted hfull hgrant'
          rw [Session.grown, helements] at hnew'
          obtain ⟨n, t, t', hone, hother, halike, hn, hn'⟩ :=
            h.alloc hm hm' (storage_granted hfull hgrant) hnew'
          unfold appendAt
          simp only [if_pos hfull, helements, hone, hother]
          refine (halike.setEntry ?_ _ _).setHeader _ _
          unfold Heap.storage
          rw [hn, hn']
        · unfold appendAt
          simp only [if_neg hfull]
          exact (h.setEntry (h.memory.storage hm hm' hcontent hread) _ _).setHeader _ _
      | _ =>
        simp only [Session.listAdd, hcontent, hread]
        exact h

theorem Session.Alike.listSet (h : Session.Alike s s') (hm : s.memory.Sound) (hm' : s'.memory.Sound)
    (hp : s.memory.heap.Live p) (hp' : s'.memory.heap.Live p) (i : Int64) (v : Boxed) :
    Session.Alike (s.listSet p i v) (s'.listSet p i v) := by
  have hread := h.memory.read hp hp'
  cases p with
  | null | static => exact h
  | chunk a =>
    unfold Session.listSet
    rw [hread]
    cases hcontent : s.memory.heap.payload? (.chunk a) with
    | none => exact h
    | some content =>
      rw [hcontent] at hread
      cases content with
      | list =>
        simp only
        split
        · exact h.setEntry (h.memory.storage hm hm' hcontent hread) _ _
        · exact h
      | _ => exact h

theorem Request.alike {q : Request} (h : Alike s s') (hm : s.memory.Sound) (hm' : s'.memory.Sound)
    (hsane : q.Sane s.memory) (hsane' : q.Sane s'.memory) (hgrant : q.Granted s) (hgrant' : q.Granted s') :
    (q.carry s').1 = (q.carry s).1 ∧ Alike (q.carry s).2 (q.carry s').2 := by
  cases q with
  | none => exact ⟨rfl, h⟩
  | collect =>
    exact ⟨rfl, ⟨h.terminal, h.input, h.stop, h.abort⟩, h.memory.cleared hm.cleared_collect hm'.cleared_collect⟩
  | alloc size content fallback =>
    have hgranted : ∀ {t : Session}, (alloc size content fallback).Granted t →
        ∀ x, (t.unaborted.alloc size content).2.abort ≠ some (.outOfMemory x) := by
      intro t ht x hx
      refine ht x ?_
      simp only [carry, allocOr]
      split
      next heq => rw [heq] at hx; exact hx
      next heq => rw [heq] at hx; exact hx
    obtain ⟨n, t, t', hone, hother, halike, -, -⟩ := h.alloc hm hm' (hgranted hgrant) (hgranted hgrant')
    simp only [carry, allocOr, hone, hother]
    exact ⟨trivial, halike⟩
  | add => exact ⟨rfl, h.listAdd hm hm' (hsane.1.live hm) (hsane'.1.live hm') hgrant hgrant'⟩
  | set p i v => exact ⟨rfl, h.listSet hm hm' (hsane.1.live hm) (hsane'.1.live hm') i v⟩

end Requests

def Entry.Granted (e : Entry) (args : List Value) (s : Session) : Prop :=
  ∀ x, (e.run args s.unaborted).2.abort ≠ some (.outOfMemory x)

section Entries

variable {e : Entry}

theorem Entry.request_unaborted (e : Entry) (args : List Value) (s : Session) :
    (e.plan args s.unaborted).request = (e.plan args s).request := by
  cases e <;> rfl

theorem Entry.granted_request (ho : e.ordinary = true) (h : e.Granted args s) :
    (e.plan args s).request.Granted ((e.plan args s).front s) := by
  intro x hx
  refine h x ?_
  have hfront : ((e.plan args s).front s).unaborted = (e.plan args s).front s.unaborted := rfl
  rw [hfront, carry_front] at hx
  rw [e.run_eq_carry ho]
  simp only [Plan.carry, e.request_unaborted, carry_front]
  exact hx

theorem Session.Alike.onRoots (h : Session.Alike s s') (f : Roots → Option RootError × Roots) :
    Session.Alike (s.onRoots f) (s'.onRoots f) := by
  unfold Session.onRoots
  simp only [h.memory.roots]
  cases f s.memory.roots with
  | mk err r =>
    have hroots := h.memory.withRoots r
    cases err with
    | none => exact ⟨⟨h.terminal, h.input, h.stop, h.abort⟩, hroots⟩
    | some =>
      simp only [check, fail, h.abort]
      split
      · exact ⟨⟨h.terminal, h.input, h.stop, rfl⟩, hroots⟩
      · exact ⟨⟨h.terminal, h.input, h.stop, rfl⟩, hroots⟩

theorem Entry.alike (hchance : e.isChance = false) (h : Alike s s') (hm : s.memory.Sound)
    (hm' : s'.memory.Sound) (hargs : Flow.Prepared e s.memory args) (hargs' : Flow.Prepared e s'.memory args)
    (hgrant : e.Granted args s) (hgrant' : e.Granted args s') :
    (e.run args s').1 = (e.run args s).1 ∧ Alike (e.run args s).2 (e.run args s').2 := by
  rcases hargs with ⟨ho, hheld⟩ | ⟨ho, -⟩
  · have hheld' : ∀ v ∈ args, s'.memory.HeldValue s'.memory.roots v := by
      rcases hargs' with ⟨-, hheld'⟩ | ⟨hnot, -⟩
      · exact hheld'
      · cases ho.symm.trans hnot
    have hptr : ∀ i, s.ReadsAs s' (argument args i).pointer := by
      intro i
      have hsafe := (Memory.Held.pointer (heldValue_argument hheld i)).safe (.refl _)
      have hsafe' := (Memory.Held.pointer (heldValue_argument hheld' i)).safe (.refl _)
      exact h.memory.readsAs hm hm' (hsafe.live hm) (hsafe'.live hm')
    have hsame := e.plan_same hchance h.toBeside hptr
    have hfront : Alike ((e.plan args s).front s) ((e.plan args s').front s') :=
      ⟨⟨hsame.terminal, hsame.input, hsame.stop, h.abort⟩, h.memory⟩
    have hasked' := granted_request ho hgrant'
    have hsane : (e.plan args s).request.Sane s.memory := e.sane_plan hheld
    have hsane' : (e.plan args s').request.Sane s'.memory := e.sane_plan hheld'
    rw [hsame.request] at hasked' hsane'
    obtain ⟨hpointer, hafter⟩ := Request.alike hfront hm hm' hsane hsane' (granted_request ho hgrant) hasked'
    rw [e.run_eq_carry ho, e.run_eq_carry ho]
    simp only [Plan.carry, hsame.request, hsame.result]
    exact ⟨congrArg _ hpointer, hafter⟩
  · cases e with
    | rootBegin => exact ⟨rfl, h.onRoots Roots.openFrame⟩
    | rootEnd => exact ⟨rfl, h.onRoots Roots.closeFrame⟩
    | rootSave => exact ⟨rfl, h.onRoots fun r => (none, r.save)⟩
    | rootRestore => exact ⟨rfl, h.onRoots Roots.restore⟩
    | flush => exact ⟨rfl, h.onRoots fun r => (none, r.flush)⟩
    | addRoot =>
      simp only [run]
      split
      next i _ => exact ⟨rfl, h.onRoots fun r => (none, r.addNamed i)⟩
      next => exact ⟨rfl, h⟩
    | addTempRoot => exact ⟨rfl, h.onRoots fun r => (none, r.addTemp _)⟩
    | _ => cases ho

end Entries

end Blockwork
