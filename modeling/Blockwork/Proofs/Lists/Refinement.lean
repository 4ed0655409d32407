import Blockwork.Proofs.Lists.Changes

/-! # Lists behave as sequences
Whatever a program does, in any order and on any number of lists, memory goes on representing a store in which every
list is a sequence of its own. -/

namespace Blockwork

open Memory Session Entry

/-- An operation of a program: it calls an entry point, or stores into a variable. -/
inductive Op where
  | call (e : Entry) (args : List Value)
  | store (slot : Nat) (v : Value)

def Op.run (s : Session) : Op → Value × Session
  | call e args => e.run args s
  | store i v => (.zero, { s with memory := s.memory.setSlot i v })

def Op.refused (s : Session) : Op → Bool
  | call e args => (e.plan args s).request.refused s.memory
  | store _ _ => false

/-- Roots reach the lists that are used and the pointers that are put into lists and boxes, and nothing becomes a root
that dangles. -/
def Op.Rooted (m : Memory) : Op → Prop
  | call .listAdd args => m.Safe (argument args 0).pointer ∧ ∀ q ∈ (argument args 1).toElement.pointers, m.Safe q
  | call .listSet args => m.Safe (argument args 0).pointer ∧ ∀ q ∈ (argument args 2).toElement.pointers, m.Safe q
  | call .listGet args => m.Safe (argument args 0).pointer
  | call .listLength args => m.Safe (argument args 0).pointer
  | call .anyFromString args => m.Safe (argument args 0).pointer
  | call .anyFromList args => m.Safe (argument args 0).pointer
  | call .addTempRoot args => m.heap.Live (argument args 0).pointer
  | call .addRoot args => ∀ i, argument args 0 = .place i → m.heap.Live (m.slot i).pointer
  | call _ _ => True
  | store i v => i ∈ m.roots.named → m.heap.Live v.pointer

/-- Each of some operations is rooted where it is made. -/
def Session.Rooted (s : Session) : List Op → Prop
  | [] => True
  | op :: ops => op.Rooted s.memory ∧ (op.run s).2.Rooted ops

/-! ### Steps of a store -/

def Entry.boxed (e : Entry) (args : List Value) : Option Boxed :=
  match e with
  | .anyFromInteger => some (.integer (argument args 0).toInteger)
  | .anyFromFloat => some (.float (argument args 0).toFloat)
  | .anyFromBool => some (.bool (argument args 0).toBool)
  | .anyFromColor => some (.color (argument args 0).toInteger)
  | .anyFromString => some (.string (argument args 0).pointer)
  | .anyFromList => some (.list (argument args 0).pointer)
  | _ => none

def Value.boxer : Value → Option Entry
  | integer _ => some .anyFromInteger
  | float _ => some .anyFromFloat
  | bool _ => some .anyFromBool
  | color _ => some .anyFromColor
  | string _ => some .anyFromString
  | list _ => some .anyFromList
  | _ => none

def Entry.isList : Entry → Bool
  | .listNew | .listAdd | .listGet | .listSet | .listLength => true
  | _ => false

namespace Store

/-- A step of a store: an operation with its result, and whether memory that it asked for was refused. -/
inductive Step (c : Store) : Op → Value → Bool → Store → Prop
  | new {args : List Value} {q : Pointer} {refused : Bool} {c' : Store} :
      c.Makes (.list 0 []) .emptyList refused q c' → Step c (.call .listNew args) (.list q) refused c'
  | add {args : List Value} {refused : Bool} {c' : Store} :
      c.Adds (argument args 0).pointer (argument args 1).toElement refused c' →
      Step c (.call .listAdd args) .zero refused c'
  | set {args : List Value} : Step c (.call .listSet args) .zero false
      (c.overwritten (argument args 0).pointer (argument args 1).toInteger.toInt (argument args 2).toElement)
  | get {args : List Value} {q : Pointer} {refused : Bool} {c' : Store} :
      c.Boxes (nth (c.sequence (argument args 0).pointer) (argument args 1).toInteger.toInt) refused q c' →
      Step c (.call .listGet args) (.any q) refused c'
  | length {args : List Value} {n : Int64} :
      n.toInt = (c.sequence (argument args 0).pointer).length → Step c (.call .listLength args) (.integer n) false c
  | box {e : Entry} {args : List Value} {v : Boxed} {q : Pointer} {refused : Bool} {c' : Store} :
      e.boxed args = some v → c.Boxes v refused q c' → Step c (.call e args) (.any q) refused c'
  /-- Every other entry point makes at most a text or an empty list. -/
  | other {e : Entry} {args : List Value} {r : Value} {refused : Bool} {c' : Store} : e.isList = false →
      e.boxed args = none →
      (c' = c ∨ ∃ a x, c (.chunk a) = none ∧ ((∃ b, x = .text b) ∨ x = .list 0 []) ∧ c' = c.put (.chunk a) (some x)) →
      Step c (.call e args) r refused c'
  | store {i : Nat} {v : Value} : Step c (.store i v) .zero false c

end Store

section Steps

variable {c : Store} {s : Session} {args : List Value}

theorem Op.Rooted.sane (h : (Op.call e args).Rooted s.memory) : (e.plan args s).request.Sane s.memory := by
  refine Entry.GivenSafe.sane ?_
  cases e with
  | listAdd | listSet | listGet | anyFromString | anyFromList => exact h
  | _ => trivial

inductive Request.Shows : Request → Datum → Prop
  | text {size : Nat} {b : Bytes} {fallback : Static} : Shows (.alloc size (.string b) fallback) (.text b)
  | list {size : Nat} {fallback : Static} : Shows (.alloc size (.list ⟨0, 0, .null⟩) fallback) (.list 0 [])

namespace Request.Shows

variable {q : Request} {x : Datum}

theorem datum (h : q.Shows x) : (∃ b, x = .text b) ∨ x = .list 0 [] := by
  cases h with
  | text => exact .inl ⟨_, rfl⟩
  | list => exact .inr rfl

theorem alloc (h : q.Shows x) : ∃ size content fallback, q = .alloc size content fallback ∧
    (∀ heap : Heap, heap.view content = some x) ∧ ∀ l, content = .list l → l = ⟨0, 0, .null⟩ := by
  cases h with
  | text => exact ⟨_, _, _, rfl, fun _ => rfl, fun _ hl => by cases hl⟩
  | list => exact ⟨_, _, _, rfl, fun _ => rfl, fun _ hl => (Payload.list.inj hl).symm⟩

end Request.Shows

theorem Entry.request_cases {e : Entry} (hlist : e.isList = false) (hbox : e.boxed args = none) :
    (e.plan args s).request = .none ∨ (e.plan args s).request = .collect ∨ ∃ x, (e.plan args s).request.Shows x := by
  cases e with
  | listNew | listAdd | listGet | listSet | listLength => cases hlist
  | anyFromInteger | anyFromFloat | anyFromBool | anyFromColor | anyFromString | anyFromList => cases hbox
  | stringFromAny =>
    simp only [plan]
    split
    · exact .inl rfl
    · exact .inr (.inr ⟨_, .text⟩)
  | listFromAny =>
    simp only [plan]
    split
    · exact .inl rfl
    · exact .inr (.inr ⟨_, .list⟩)
  | anyTypeName | stringFromLiteral | stringFromInteger | stringFromFloat | stringFromBool
  | stringFromColor | stringJoin | stringLetterIn | stringSubstring | stringChr | termInput | termGetChar =>
    exact .inr (.inr ⟨_, .text⟩)
  | collect => exact .inr (.inl rfl)
  | _ => exact .inl rfl

def IsStep (c : Store) (s : Session) (e : Entry) (args : List Value) : Prop :=
  ∃ c', c.Step (.call e args) (e.run args s).1 ((Op.call e args).refused s) c' ∧ Represents c' (e.run args s).2.memory

theorem step_other {e : Entry} (ho : e.ordinary = true) (hlist : e.isList = false) (hbox : e.boxed args = none)
    (h : Represents c s.memory) (hsane : (e.plan args s).request.Sane s.memory) : IsStep c s e args := by
  have hfront : Represents c ((e.plan args s).front s).memory := h
  unfold IsStep
  rw [e.run_eq_carry ho]
  simp only [Plan.carry]
  rcases request_cases (s := s) hlist hbox with hnone | hcollect | ⟨x, hshows⟩
  · rw [hnone]
    exact ⟨c, .other hlist hbox (.inl rfl), hfront⟩
  · rw [hcollect]
    exact ⟨c, .other hlist hbox (.inl rfl), hfront.cleared hfront.sound.cleared_collect⟩
  · obtain ⟨size, content, fallback, halloc, hview, hl⟩ := hshows.alloc
    rw [halloc] at hsane ⊢
    obtain ⟨c', hmakes, hc'⟩ := makes_allocOr hfront size fallback hsane.1 hl hview
    refine ⟨c', .other hlist hbox ?_, hc'⟩
    unfold Store.Makes at hmakes
    split at hmakes
    · exact .inl hmakes.2
    · obtain ⟨a, hq, hnone, rfl⟩ := hmakes
      rw [hq] at hnone ⊢
      exact .inr ⟨a, x, hnone, hshows.datum, rfl⟩

theorem step_onRoots {f : Roots → Option RootError × Roots} (hlist : e.isList = false) (hbox : e.boxed args = none)
    (hrun : e.run args s = (s.onRoots f).only) (hroots : Represents c { s.memory with roots := (f s.memory.roots).2 }) :
    IsStep c s e args := by
  refine ⟨c, .other hlist hbox (.inl rfl), ?_⟩
  rw [hrun, only, memory_onRoots]
  exact hroots

theorem step_box (hbox : e.boxed args = some v) (hplan : e.plan args s = s.boxes v)
    (hrun : e.run args s = anyResult (s.allocAny v)) (h : Represents c s.memory)
    (hv : ∀ q ∈ v.pointers, s.memory.Safe q) : IsStep c s e args := by
  obtain ⟨c', hboxes, hc'⟩ := boxes_allocAny h hv
  rw [← hplan] at hboxes
  unfold IsStep
  rw [hrun]
  exact ⟨c', .box hbox hboxes, hc'⟩

theorem step_call (h : Represents c s.memory) (hop : (Op.call e args).Rooted s.memory) : IsStep c s e args := by
  cases e with
  | rootBegin => exact step_onRoots rfl rfl rfl (h.sub ⟨fun _ => id, fun _ => id⟩)
  | rootEnd => exact step_onRoots rfl rfl rfl (h.sub (Roots.sub_closeFrame _))
  | rootSave => exact step_onRoots rfl rfl rfl (h.sub ⟨fun _ => id, fun _ => id⟩)
  | rootRestore => exact step_onRoots rfl rfl rfl (h.sub (Roots.sub_restore _))
  | flush => exact step_onRoots rfl rfl rfl (h.sub (Roots.sub_flush _))
  | addTempRoot => exact step_onRoots rfl rfl rfl (h.addTemp hop)
  | addRoot =>
    cases harg : argument args 0 with
    | place i =>
      refine step_onRoots (f := fun r => (none, r.addNamed i)) rfl rfl (by simp only [run, harg]; rfl) ?_
      refine h.withRoots (h.sound.withRoots (fun j hj => ?_) h.sound.closed.temps)
      rcases Array.mem_push.mp hj with hj | rfl
      · exact h.sound.closed.named j hj
      · exact hop j harg
    | _ =>
      have hrun : addRoot.run args s = s.only := by simp only [run, harg]
      unfold IsStep
      rw [hrun]
      exact ⟨c, .other rfl rfl (.inl rfl), h⟩
  | listNew =>
    have hsane : (s.makesList).request.Sane s.memory := s.sane_makesList
    obtain ⟨c', hmakes, hc'⟩ := makes_allocOr (x := .list 0 []) h listSize .emptyList hsane.1
      (fun _ hl => (Payload.list.inj hl).symm) fun _ => rfl
    exact ⟨c', .new hmakes, hc'⟩
  | listAdd =>
    obtain ⟨c', hadds, hc'⟩ := adds_listAdd h hop.1 hop.2
    exact ⟨c', .add hadds, hc'⟩
  | listSet => exact ⟨_, .set, represents_listSet h hop.1 hop.2⟩
  | listGet =>
    obtain ⟨c', hboxes, hc'⟩ := boxes_allocAny h fun q hq => safe_elementAt hop hq
    refine ⟨c', .get ?_, hc'⟩
    rw [sequence_eq h hop, nth_listElements]
    exact hboxes
  | listLength =>
    refine ⟨c, .length ?_, h⟩
    rw [sequence_eq h hop]
    exact toInt_listLength h
  | anyFromInteger | anyFromFloat | anyFromBool | anyFromColor => exact step_box rfl rfl rfl h (List.forall_mem_nil _)
  | anyFromString =>
    refine step_box rfl rfl rfl h fun q hq => ?_
    obtain ⟨-, rfl⟩ := Heap.mem_pointers_string.mp hq
    exact hop
  | anyFromList =>
    refine step_box rfl rfl rfl h fun q hq => ?_
    obtain ⟨-, rfl⟩ := Heap.mem_pointers_list.mp hq
    exact hop
  | _ => exact step_other rfl rfl rfl h hop.sane

theorem recorded_call (h : (Op.call e args).refused s = true) : (e.run args s).2.abort.isSome = true := by
  cases ho : e.ordinary with
  | true =>
    rw [e.run_eq_carry ho]
    exact Request.recorded (s := (e.plan args s).front s) h
  | false =>
    cases e with
    | rootBegin | rootEnd | rootSave | rootRestore | flush | addRoot | addTempRoot => cases h
    | _ => cases ho

theorem live_call (hm : s.memory.Sound) (hop : (Op.call e args).Rooted s.memory) (hp : s.memory.Safe p) :
    (e.run args s).2.memory.heap.Live p := by
  have hlive := hp.live hm
  have hroots : ∀ f, (s.onRoots f).memory.heap.Live p := fun f => by
    rw [memory_onRoots]
    exact hlive
  cases ho : e.ordinary with
  | true =>
    rw [e.run_eq_carry ho]
    have hsane : (e.plan args s).request.Sane ((e.plan args s).front s).memory := hop.sane
    exact (Request.after (s := (e.plan args s).front s) hm hsane).1.live p hp
  | false =>
    cases e with
    | rootBegin | rootEnd | rootSave | rootRestore | flush | addTempRoot => exact hroots _
    | addRoot =>
      simp only [run]
      split
      · exact hroots _
      · exact hlive
    | _ => cases ho

end Steps

/-! ### Runs -/

/-- Operations on memory that represents a store: each is a step of the store, what roots reach outlives it, and a
refusal is recorded. -/
inductive Store.Simulates : Store → Session → List Op → Prop
  | done {c : Store} {s : Session} : Represents c s.memory → Simulates c s []
  | step {c c' : Store} {s : Session} {op : Op} {ops : List Op} : Represents c s.memory →
      c.Step op (op.run s).1 (op.refused s) c' → (∀ p, s.memory.Safe p → (op.run s).2.memory.heap.Live p) →
      (op.refused s = true → (op.run s).2.abort.isSome = true) → Simulates c' (op.run s).2 ops →
      Simulates c s (op :: ops)

theorem simulates (h : Represents c s.memory) (hops : s.Rooted ops) : c.Simulates s ops := by
  induction ops generalizing c s with
  | nil => exact .done h
  | cons op ops ih =>
    obtain ⟨hop, hops⟩ := hops
    cases op with
    | call =>
      obtain ⟨c', hstep, hc'⟩ := step_call h hop
      exact .step h hstep (fun p hp => live_call h.sound hop hp) recorded_call (ih hc' hops)
    | store => exact .step h .store (fun p hp => hp.live h.sound) nofun (ih (h.setSlot hop) hops)

theorem represents_new (low limit : Nat) (slots : Array Value) :
    Represents .start { Memory.new low limit with slots } := by
  have hempty : ∀ p l, (Heap.new low limit).payload? p = some (.list l) → l = ⟨0, 0, .null⟩ := by
    intro p l hread
    rcases chunk_or_empty hread with ⟨a, rfl⟩ | hl
    · cases hread
    · exact hl
  refine ⟨(Sound.new low limit).withSlots nofun, fun p l hread => ?_, fun p q l k hp _ _ hne => ?_, fun p hp => ?_,
    fun _ _ => rfl⟩
  · rw [hempty p l hread]
    exact Heap.shaped_empty
  · rw [hempty p l hp] at hne
    exact absurd rfl hne
  · cases p with
    | null => rfl
    | static st => cases st <;> rfl
    | chunk =>
      rcases hp with hnull | hsome
      · cases hnull
      · cases hsome

/-- Lists behave as sequences, each of its own, along every run of operations on lists that roots reach: capacities are
the smallest powers of two, no two lists share their storage, and what is seen is changed by the steps of the store
only. An element is what boxing its value gives. -/
theorem lists_refine_sequences {s : Session} {low limit : Nat} {slots : Array Value} {ops : List Op}
    (hs : s.memory = { Memory.new low limit with slots }) (hops : s.Rooted ops) :
    Store.start.Simulates s ops ∧
      ∀ (t : Session) (v : Value) (e : Entry), v.boxer = some e → e.boxed [v] = some (t.elementOf v) := by
  refine ⟨simulates (hs ▸ represents_new low limit slots) hops, fun t v e he => ?_⟩
  cases v with
  | integer | float | bool | color | string | list =>
    cases he
    rfl
  | _ => cases he

/-- A list is put into another one, which a variable keeps alive from then on. -/
def listInList : List Op :=
  [.call .rootBegin [], .call .listNew [], .call .listAdd [.list (.chunk 0), .element (.integer 5)],
   .call .listNew [], .call .listAdd [.list (.chunk 2), .element (.list (.chunk 0))],
   .store 0 (.list (.chunk 2)), .call .addRoot [.place 0], .call .flush [],
   .call .listAdd [.list (.chunk 0), .element (.bool true)],
   .call .listSet [.list (.chunk 0), .integer 0, .element (.integer 7)],
   .call .listGet [.list (.chunk 0), .integer 0], .call .listLength [.list (.chunk 2)],
   .call .listAdd [.list (.chunk 0), .element .nothing]]

def tight : Session := { memory := { Memory.new 1000 136 with slots := #[.zero] } }

theorem rooted_listInList : tight.Rooted listInList := by
  have htemp : ∀ {m : Memory} {p : Pointer}, p ∈ m.roots.temps → m.Safe p := fun hp => .inr (.inr (.root (.temp hp)))
  have hnamed : ∀ {m : Memory}, 0 ∈ m.roots.named ∧ m.slot 0 = .list (.chunk 2) → m.Safe (.chunk 2) := by
    rintro m ⟨hnamed, hslot⟩
    have hroot : m.heap.Reached m.IsRoot (m.slot 0).pointer := .root (.named hnamed (by rw [hslot]; nofun))
    rw [hslot] at hroot
    exact .inr (.inr hroot)
  have helement : ∀ {m : Memory}, (0 ∈ m.roots.named ∧ m.slot 0 = .list (.chunk 2)) ∧
      m.heap.payload? (.chunk 2) = some (.list ⟨1, 1, .chunk 3⟩) ∧
      m.heap.payload? (.chunk 3) = some (.raw #[.list (.chunk 0)]) → m.Safe (.chunk 0) := by
    rintro m ⟨hroot, hlist, hraw⟩
    exact (hnamed hroot).refers hlist (Heap.refers_element hraw Nat.one_pos rfl List.mem_cons_self)
  refine ⟨trivial, trivial, ⟨htemp ?_, nofun⟩, trivial, ⟨htemp ?_, fun q hq => ?_⟩, fun hi => absurd hi ?_,
    fun i hi => ?_, trivial, ⟨helement ?_, nofun⟩, ⟨helement ?_, nofun⟩, helement ?_, hnamed ?_, ⟨helement ?_, nofun⟩,
    trivial⟩
  case refine_3 =>
    obtain rfl : q = .chunk 0 := List.mem_singleton.mp hq
    exact htemp (by decide +kernel)
  case refine_5 =>
    cases hi
    exact .inr (by decide +kernel)
  all_goals decide +kernel

theorem lists_refine_sequences_nested : tight.Rooted listInList ∧ Store.start.Simulates tight listInList :=
  ⟨rooted_listInList, (lists_refine_sequences rfl rooted_listInList).1⟩

end Blockwork
