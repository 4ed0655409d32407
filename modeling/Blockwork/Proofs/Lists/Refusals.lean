import Mathlib.Data.List.Permutation
import Blockwork.Proofs.Lists.Refinement

/-! # Refused memory
An operation records at most one fatal condition, and only where none is pending. -/

namespace Blockwork

open Memory Session

/-! ### Conditions -/

def Memory.refusal? (m : Memory) (size : Nat) (content : Payload) : Option OutOfMemory :=
  match (m.malloc size content).1 with
  | .ok _ => none
  | .error e => some e

/-- The error of a refused request; a list asks for a larger storage when it is full. -/
def Request.refusal? (m : Memory) : Request → Option OutOfMemory
  | alloc size content _ => m.refusal? size content
  | add p _ =>
    match p, m.heap.payload? p with
    | .chunk _, some (.list l) =>
      if l.len = l.cap then
        m.refusal? (grownCap l.cap * anySize)
          (.raw (storageOf (grownCap l.cap) (m.heap.elements l)))
      else .none
    | _, _ => .none
  | _ => .none

def Request.substitute : Request → Pointer
  | alloc _ _ fallback => .static fallback
  | _ => .null

def Entry.rootError? (e : Entry) (r : Roots) : Option RootError :=
  match e with
  | .rootBegin => r.openFrame.1
  | .rootEnd => r.closeFrame.1
  | .rootRestore => r.restore.1
  | _ => none

def Entry.refusal? (e : Entry) (args : List Value) (s : Session) : Option OutOfMemory :=
  (e.plan args s).request.refusal? s.memory

def Op.meets? (s : Session) : Op → Option Fatal
  | call e args => ((e.rootError? s.memory.roots).map .roots).or ((e.refusal? args s).map .outOfMemory)
  | store _ _ => none

def Session.after (s : Session) : List Op → Session
  | [] => s
  | op :: ops => (op.run s).2.after ops

def Session.meets (s : Session) : List Op → List Fatal
  | [] => []
  | op :: ops => (op.meets? s).toList ++ (op.run s).2.meets ops

/-- What an entry point gives when it is refused memory. -/
def Entry.fallback : Entry → Value
  | .listAdd => .zero
  | .listNew | .listFromAny => .list (.static .emptyList)
  | .anyFromInteger | .anyFromFloat | .anyFromBool | .anyFromColor | .anyFromString | .anyFromList | .listGet =>
    .any (.static .nothing)
  | _ => .string (.static .emptyString)

section Steps

variable {s : Session} {e : Entry} {args : List Value} {q : Request} {err : OutOfMemory} {m : Memory}

theorem Memory.malloc_refused (h : m.refusal? size content = some err) :
    ∃ m', (m' = m ∨ m' = m.makeRoom size) ∧ m.malloc size content = (.error err, m') := by
  obtain ⟨m', hroom, hok | ⟨err', herror⟩⟩ := m.malloc_cases size content
  · rw [refusal?, hok] at h
    cases h
  · rw [refusal?, herror] at h
    cases h
    exact ⟨m', hroom, herror⟩

theorem Memory.malloc_granted (h : m.refusal? size content = none) : ∃ p m', m.malloc size content = (.ok p, m') := by
  obtain ⟨m', -, hok | ⟨err', herror⟩⟩ := m.malloc_cases size content
  · exact ⟨_, _, hok⟩
  · rw [refusal?, herror] at h
    cases h

theorem Request.carry_refused (h : q.refusal? s.memory = some err) :
    ∃ m size, (m = s.memory ∨ m = s.memory.makeRoom size) ∧
      q.carry s = (q.substitute, { s with memory := m }.fail (.outOfMemory err)) := by
  cases q with
  | none | collect | set => cases h
  | alloc size =>
    obtain ⟨m, hroom, herror⟩ := malloc_refused h
    refine ⟨m, size, hroom, ?_⟩
    simp only [carry, allocOr, Session.alloc, herror, substitute]
  | add =>
    simp only [refusal?] at h
    split at h
    next a l hread =>
      split at h
      next hfull =>
        obtain ⟨m, hroom, herror⟩ := malloc_refused h
        refine ⟨m, _, hroom, ?_⟩
        simp only [carry, listAdd, hread, appendAt, if_pos hfull, Session.alloc, herror, substitute]
      next => cases h
    next => cases h

theorem Request.abort_granted (h : q.refusal? s.memory = .none) : (q.carry s).2.abort = s.abort := by
  cases q with
  | none | collect => rfl
  | alloc =>
    obtain ⟨p, m, hok⟩ := malloc_granted h
    simp only [carry, allocOr, Session.alloc, hok]
  | add p v =>
    simp only [carry, listAdd]
    split
    next a l hread =>
      simp only [refusal?, hread] at h
      have hentry (t : Session) (items : Pointer) (i : Nat) : (t.setEntry items i v).abort = t.abort := by
        obtain ⟨heap, hheap⟩ := t.setEntry_eq items i v
        rw [hheap]
      unfold appendAt
      split
      next hfull =>
        rw [if_pos hfull] at h
        obtain ⟨p, m, hok⟩ := malloc_granted h
        simp only [Session.alloc, hok]
        exact hentry _ _ _
      next => exact hentry _ _ _
    next => rfl
  | set p index v =>
    obtain ⟨heap, hheap⟩ := s.listSet_eq p index v
    simp only [carry, hheap]

theorem Session.abort_fail (s : Session) (f : Fatal) : (s.fail f).abort = s.abort.or (some f) := by
  unfold fail
  cases h : s.abort with
  | none => rfl
  | some => exact h

theorem Request.aborted_carry (q : Request) (s : Session) :
    (q.carry s).2.abort = s.abort.or ((q.refusal? s.memory).map .outOfMemory) := by
  cases h : q.refusal? s.memory with
  | none => rw [q.abort_granted h, Option.map_none, Option.or_none]
  | some =>
    obtain ⟨m, size, -, hcarry⟩ := q.carry_refused h
    rw [hcarry, abort_fail, Option.map_some]

theorem Session.abort_onRoots (s : Session) (f : Roots → Option RootError × Roots) :
    (s.onRoots f).abort = s.abort.or ((f s.memory.roots).1.map .roots) := by
  obtain ⟨⟨heap, roots, slots⟩, terminal, input, stop, abort, entropy, clock⟩ := s
  simp only [onRoots]
  cases f roots with
  | mk err =>
    cases err with
    | none => exact Option.or_none.symm
    | some => exact abort_fail _ _

theorem Op.abort_run (op : Op) (s : Session) : (op.run s).2.abort = s.abort.or (op.meets? s) := by
  cases op with
  | store => exact Option.or_none.symm
  | call e args =>
    cases ho : e.ordinary with
    | true =>
      have hcarry := (e.plan args s).request.aborted_carry ((e.plan args s).front s)
      have hroots : e.rootError? s.memory.roots = none := by
        cases e with
        | rootBegin | rootEnd | rootRestore => cases ho
        | _ => rfl
      simp only [run, e.run_eq_carry ho, meets?, hroots]
      exact hcarry
    | false =>
      cases e with
      | rootBegin | rootEnd | rootRestore =>
        refine (s.abort_onRoots _).trans ?_
        simp only [meets?, Entry.refusal?, Entry.plan, gives, asks, Request.refusal?, Option.map_none, Option.or_none]
        rfl
      | rootSave | flush | addTempRoot => exact s.abort_onRoots _
      | addRoot =>
        simp only [run, Entry.run]
        split
        · exact s.abort_onRoots _
        · exact Option.or_none.symm
      | _ => cases ho

theorem Entry.result_substitute (h : e.refusal? args s = some err) :
    (e.plan args s).result (e.plan args s).request.substitute = e.fallback := by
  unfold Entry.refusal? at h
  have hbox (v : Boxed) (hv : (s.boxes v).request.refusal? s.memory = some err) :
      (s.boxes v).result (s.boxes v).request.substitute = .any (.static .nothing) := by
    unfold boxes at hv ⊢
    split at hv
    · cases hv
    next hne => rw [if_neg hne]; rfl
  cases e with
  | anyFromInteger | anyFromFloat | anyFromBool | anyFromColor | anyFromString | anyFromList | listGet =>
    exact hbox _ h
  | stringFromAny =>
    simp only [Entry.plan] at h ⊢
    cases hv : s.boxed (argument args 0).pointer with
    | string => rw [hv] at h; cases h
    | _ => rfl
  | listFromAny =>
    simp only [Entry.plan] at h ⊢
    cases hv : s.boxed (argument args 0).pointer with
    | list => rw [hv] at h; cases h
    | _ => rfl
  | anyTypeName | stringFromLiteral | stringFromInteger | stringFromFloat | stringFromBool | stringFromColor
  | stringJoin | stringLetterIn | stringSubstring | stringChr | listNew | listAdd | termInput | termGetChar => rfl
  | _ => cases h

theorem Entry.run_refused (h : e.refusal? args s = some err) : (e.run args s).1 = e.fallback ∧
      ∃ m size, (m = s.memory ∨ m = s.memory.makeRoom size) ∧ (e.run args s).2.memory = m := by
  have ho : e.ordinary = true := by
    cases e with
    | rootBegin | rootEnd | rootSave | rootRestore | flush | addRoot | addTempRoot => cases h
    | _ => rfl
  obtain ⟨m, size, hroom, hcarry⟩ := Request.carry_refused (s := (e.plan args s).front s) h
  rw [e.run_eq_carry ho, Plan.carry, hcarry]
  exact ⟨e.result_substitute h, m, size, hroom, fail_memory _ _⟩

theorem Entry.seen_refused (h : Represents c s.memory) (hr : e.refusal? args s = some err) (hp : s.memory.Safe p) :
    (e.run args s).2.memory.heap.datum? p = s.memory.heap.datum? p := by
  obtain ⟨-, m, size, hroom, hmemory⟩ := e.run_refused hr
  have hclear := cleared_room h.sound hroom
  rw [hmemory, ← (h.cleared hclear).agrees p (hclear.live h.sound hp), h.agrees p (hp.live h.sound)]

end Steps

theorem Session.static_unwritten (s : Session) (x : Static) (index : Int64) (v : Boxed) :
    s.listAdd (.static x) v = s ∧ s.listSet (.static x) index v = s :=
  ⟨rfl, rfl⟩

theorem Heap.markFrom_static (h : Heap) (x : Static) (work : List Pointer) :
    h.markFrom (.static x :: work) = h.markFrom work := by
  rw [Heap.markFrom]
  rfl

theorem Session.abort_after (s : Session) (ops : List Op) : (s.after ops).abort = s.abort.or (s.meets ops).head? := by
  induction ops generalizing s with
  | nil => exact Option.or_none.symm
  | cons op ops ih =>
    rw [after, ih, op.abort_run, Option.or_assoc, meets]
    cases op.meets? s <;> rfl

theorem Session.after_append (s : Session) (before rest : List Op) :
    s.after (before ++ rest) = (s.after before).after rest := by
  induction before generalizing s with
  | nil => rfl
  | cons op before ih => exact ih _

theorem Session.represents_after {s : Session} (h : Represents c s.memory) (hops : s.Rooted (before ++ rest)) :
    ∃ c', Represents c' (s.after before).memory := by
  induction before generalizing c s with
  | nil => exact ⟨c, h⟩
  | cons op before ih =>
    obtain ⟨hop, hops⟩ := hops
    cases op with
    | call =>
      obtain ⟨c', -, hc'⟩ := step_call h hop
      exact ih hc' hops
    | store => exact ih (h.setSlot hop) hops

/-- Refused memory is contained, whatever a program does before and after on what roots reach. The first fatal
condition is pending from the refusal on. The entry point gives its static value, and what roots reach stays as it is.
The static values read as ever, take no element and are passed over by collections. -/
theorem refusals_contained {s : Session} {low limit : Nat} {slots : Array Value} {ops : List Op}
    (hs : s.memory = { Memory.new low limit with slots }) (hops : s.Rooted ops) :
    (s.after ops).abort = s.abort.or (s.meets ops).head? ∧
    (∀ before e args rest err, ops = before ++ .call e args :: rest → e.refusal? args (s.after before) = some err →
      (∃ first, s.abort.or (s.meets ops).head? = some first ∧ (e.run args (s.after before)).2.abort = some first) ∧
      (e.run args (s.after before)).1 = e.fallback ∧
      ∀ p, (s.after before).memory.Safe p →
        (e.run args (s.after before)).2.memory.heap.datum? p = (s.after before).memory.heap.datum? p) ∧
    ∀ x : Static, (s.after ops).memory.heap.payload? (.static x) = some x.payload ∧
      (∀ index v, (s.after ops).listAdd (.static x) v = s.after ops ∧
        (s.after ops).listSet (.static x) index v = s.after ops) ∧
      ∀ work, (s.after ops).memory.heap.markFrom (.static x :: work) = (s.after ops).memory.heap.markFrom work := by
  refine ⟨s.abort_after ops, fun before e args rest err hsplit hr => ?_, fun x =>
    ⟨rfl, (s.after ops).static_unwritten x, (s.after ops).memory.heap.markFrom_static x⟩⟩
  subst hsplit
  obtain ⟨c, hc⟩ := Session.represents_after (hs ▸ represents_new low limit slots) hops
  refine ⟨?_, (e.run_refused hr).1, fun p => e.seen_refused hc hr⟩
  have hpending : ∃ first, (e.run args (s.after before)).2.abort = some first := by
    have hmeets := Op.abort_run (.call e args) (s.after before)
    rw [Op.meets?, hr] at hmeets
    refine Option.isSome_iff_exists.mp ?_
    simp only [Op.run] at hmeets
    rw [hmeets]
    simp
  obtain ⟨first, hfirst⟩ := hpending
  refine ⟨first, ?_, hfirst⟩
  -- later conditions do not replace the pending one
  have hlater := (e.run args (s.after before)).2.abort_after rest
  rw [hfirst, Option.some_or] at hlater
  rw [← s.abort_after, s.after_append]
  exact hlater

/-- With room for one box, a list is refused, and so is a text. -/
def scarce : List Op :=
  [.call .rootBegin [], .call .listNew [], .call .listAdd [.list (.static .emptyList), .element (.integer 5)],
   .call .anyFromInteger [.integer 3], .call .stringFromBool [.bool true], .call .collect []]

/-- The list is refused first. A refused text leaves the box alone, and the box outlives the collection. -/
theorem refusals_contained_scarce : ({ memory := Memory.new 20 20 } : Session).Rooted scarce ∧
    (({ memory := Memory.new 20 20 } : Session).after scarce).abort = some (.outOfMemory ⟨24, 0, 20⟩) ∧
    (Entry.stringFromBool.run [.bool true] (({ memory := Memory.new 20 20 } : Session).after (scarce.take 4))).1 =
      .string (.static .emptyString) ∧
    (({ memory := Memory.new 20 20 } : Session).after (scarce.take 5)).memory.heap.datum? (.chunk 0) =
      some (.box (.integer 3)) := by
  have hrooted : ({ memory := Memory.new 20 20 } : Session).Rooted scarce :=
    ⟨trivial, trivial, ⟨.inr (.inl ⟨_, rfl⟩), nofun⟩, trivial, trivial, trivial, trivial⟩
  have hfresh : ({ memory := Memory.new 20 20 } : Session).memory = { Memory.new 20 20 with slots := #[] } := rfl
  obtain ⟨hfirst, hrefused, -⟩ := refusals_contained hfresh hrooted
  obtain ⟨-, htext, hsame⟩ :=
    hrefused (scarce.take 4) .stringFromBool [.bool true] (scarce.drop 5) ⟨13, 16, 20⟩ rfl (by cbv)
  refine ⟨hrooted, hfirst.trans (by decide +kernel), htext, ?_⟩
  exact (hsame (.chunk 0) (.inr (.inr (.root (.temp (by decide +kernel)))))).trans (by decide +kernel)

end Blockwork
