import Blockwork.Proofs.Rooting.Leaving
import Blockwork.Proofs.Trimming.Code

/-! # Roots with idle frames
Two root stacks that hold the same named roots and temporaries keep the same chunks alive, whatever frames are
open over them. -/

namespace Blockwork

open Roots

/-! ### The same chunks kept alive -/

structure Roots.Agrees (r' r : Roots) : Prop where
  named : r'.named = r.named
  temps : r'.temps = r.temps

namespace Memory

variable {m : Memory} {r : Roots}

theorem fits_withRoots (m : Memory) (r : Roots) (size : Nat) : (m.withRoots r).fits size = m.fits size := rfl

theorem rootPointers_withRoots (h : r.Agrees m.roots) : (m.withRoots r).rootPointers = m.rootPointers := by
  unfold rootPointers
  rw [show (m.withRoots r).roots = r from rfl, h.named, h.temps]
  rfl

theorem collect_withRoots (h : r.Agrees m.roots) : (m.withRoots r).collect = m.collect.withRoots r := by
  unfold collect
  rw [rootPointers_withRoots h]
  rfl

theorem makeRoom_withRoots (h : r.Agrees m.roots) (size : Nat) :
    (m.withRoots r).makeRoom size = (m.makeRoom size).withRoots r := by
  unfold makeRoom
  simp only [collect_withRoots h, fits_withRoots]
  split
  · rfl
  · split <;> rfl

theorem malloc_withRoots (h : r.Agrees m.roots) (size : Nat) (content : Payload) :
    ∃ new, (m.malloc size content).2.roots = m.roots.extend new ∧ (m.withRoots r).malloc size content =
        ((m.malloc size content).1, (m.malloc size content).2.withRoots (r.extend new)) := by
  have hroom := makeRoom_withRoots h size
  by_cases hlimit : size > m.heap.limit ∨ m.heap.used + size ≥ UInt64.size
  · refine ⟨[], ?_, ?_⟩
    · simp only [malloc, if_pos hlimit, extend_nil]
    · rw [extend_nil]
      simp only [malloc, if_pos hlimit, show (m.withRoots r).heap = m.heap from rfl]
      rfl
  by_cases hfits : (m.makeRoom size).fits size = true ∧ size ≤ hostLimit
  · refine ⟨[.chunk (m.makeRoom size).heap.next], ?_, ?_⟩
    · simp only [malloc, if_neg hlimit, if_pos hfits, grant, (room_cases (.inr rfl)).1]
      exact addTemp_eq (by simp)
    · rw [← addTemp_eq (r := r) (p := .chunk (m.makeRoom size).heap.next) (by simp)]
      simp only [malloc, show (m.withRoots r).heap = m.heap from rfl, if_neg hlimit, hroom, fits_withRoots,
        if_pos hfits]
      rfl
  · refine ⟨[], ?_, ?_⟩
    · simp only [malloc, if_neg hlimit, if_neg hfits, (room_cases (.inr rfl)).1, extend_nil]
    · rw [extend_nil]
      simp only [malloc, show (m.withRoots r).heap = m.heap from rfl, if_neg hlimit, hroom, fits_withRoots,
        if_neg hfits]
      rfl

end Memory

namespace Session

def withRoots (s : Session) (r : Roots) : Session :=
  { s with memory := s.memory.withRoots r }

def shifted (s : Session) (pl : Plan) (r : Roots) : Session :=
  pl.front (s.withRoots r)

theorem fail_shifted (s : Session) (pl : Plan) (r : Roots) (e : Fatal) :
    (s.shifted pl r).fail e = (s.fail e).shifted pl r := by
  unfold fail
  rw [show (s.shifted pl r).abort = s.abort from rfl]
  split <;> rfl

theorem rootBegin_eq_check (s : Session) : s.rootBegin = (s.withRoots s.memory.roots.openFrame.2).check
      (if s.memory.roots.openFrame.2.depth > maxRootDepth then some .overflow else none) := rfl

theorem rootBegin_eq {s : Session} (h : s.abort.isSome = true ∨ s.memory.roots.openFrame.2.depth ≤ maxRootDepth) :
    s.rootBegin = s.withRoots s.memory.roots.openFrame.2 := by
  rw [rootBegin_eq_check]
  split
  next hover =>
    have habort : s.abort.isSome = true := h.resolve_right (Nat.not_le.mpr hover)
    exact if_pos habort
  next => rfl

theorem room_of_rootBegin {s : Session} (h : s.rootBegin.abort ≠ some (.roots .overflow)) :
    s.abort.isSome = true ∨ s.memory.roots.openFrame.2.depth ≤ maxRootDepth := by
  rw [rootBegin_eq_check] at h
  by_cases hover : s.memory.roots.openFrame.2.depth > maxRootDepth
  · rw [if_pos hover] at h
    cases habort : s.abort with
    | some e => exact Or.inl rfl
    | none =>
      have hnone : ¬ (s.withRoots s.memory.roots.openFrame.2).abort.isSome = true := by
        rw [show (s.withRoots s.memory.roots.openFrame.2).abort = s.abort from rfl, habort]
        exact Bool.false_ne_true
      exact absurd (congrArg Session.abort (if_neg hnone)) h
  · exact Or.inr (Nat.not_lt.mp hover)

def Lifts {α : Type} (s : Session) (pl : Plan) (r : Roots) (x : Session → α × Session) : Prop :=
  ∃ new, (x s).2.memory.roots = s.memory.roots.extend new ∧
    x (s.shifted pl r) = ((x s).1, (x s).2.shifted pl (r.extend new))

variable {s : Session} {pl : Plan} {r : Roots}

theorem Lifts.keeps {α : Type} {x : Session → α × Session} (hroots : (x s).2.memory.roots = s.memory.roots)
    (hx : x (s.shifted pl r) = ((x s).1, (x s).2.shifted pl r)) : s.Lifts pl r x :=
  ⟨[], by rw [hroots, extend_nil], by rw [hx, extend_nil]⟩

theorem alloc_lifts (h : r.Agrees s.memory.roots) (size : Nat) (content : Payload) :
    s.Lifts pl r fun s => s.alloc size content := by
  obtain ⟨new, hroots, hmalloc⟩ := Memory.malloc_withRoots h size content
  refine ⟨new, ?_, ?_⟩
  · simp only [alloc]
    generalize s.memory.malloc size content = x at hroots
    obtain ⟨_ | q, m⟩ := x
    · simp only [fail_memory]
      exact hroots
    · exact hroots
  · simp only [alloc]
    rw [show (s.shifted pl r).memory = s.memory.withRoots r from rfl, hmalloc]
    generalize s.memory.malloc size content = x
    obtain ⟨e | q, m⟩ := x
    · exact congrArg (Prod.mk none) (fail_shifted { s with memory := m } pl (r.extend new) (.outOfMemory e))
    · rfl

theorem allocOr_lifts (h : r.Agrees s.memory.roots) (size : Nat) (content : Payload) (fallback : Static) :
    s.Lifts pl r fun s => s.allocOr size content fallback := by
  obtain ⟨new, hroots, halloc⟩ := alloc_lifts h size content
  simp only at hroots halloc
  refine ⟨new, ?_, ?_⟩
  · simp only [allocOr]
    generalize s.alloc size content = x at hroots
    obtain ⟨_ | q, t⟩ := x <;> exact hroots
  · simp only [allocOr]
    rw [halloc]
    generalize s.alloc size content = x
    obtain ⟨_ | q, t⟩ := x <;> rfl

theorem setEntry_shifted (s : Session) (pl : Plan) (r : Roots) (items : Pointer) (i : Nat) (v : Boxed) :
    (s.shifted pl r).setEntry items i v = (s.setEntry items i v).shifted pl r := by
  cases items <;> rfl

theorem listSet_shifted (s : Session) (pl : Plan) (r : Roots) (p : Pointer) (index : Int64) (v : Boxed) :
    (s.shifted pl r).listSet p index v = (s.listSet p index v).shifted pl r := by
  unfold listSet
  rw [show (s.shifted pl r).memory.heap = s.memory.heap from rfl]
  split
  · split
    · exact setEntry_shifted _ _ _ _ _ _
    · rfl
  · rfl

theorem appendAt_lifts (h : r.Agrees s.memory.roots) (addr : Nat) (l : ListHeader) (v : Boxed) :
    s.Lifts pl r fun s => (Pointer.null, s.appendAt addr l v) := by
  by_cases hfull : l.len = l.cap
  · obtain ⟨new, hroots, halloc⟩ := alloc_lifts h (grownSize l) (s.grown l)
    simp only at hroots halloc
    refine ⟨new, ?_, ?_⟩
    · simp only [appendAt, if_pos hfull]
      generalize s.alloc _ _ = x at hroots
      obtain ⟨_ | q, t⟩ := x
      · exact hroots
      · obtain ⟨heap, hheap⟩ := t.setEntry_eq q l.len v
        simp only [hheap]
        exact hroots
    · simp only [appendAt, if_pos hfull]
      rw [show (s.shifted pl r).memory.heap = s.memory.heap from rfl, halloc]
      generalize s.alloc _ _ = x
      obtain ⟨_ | q, t⟩ := x
      · rfl
      · simp only [setEntry_shifted]
        rfl
  · refine .keeps ?_ ?_
    · obtain ⟨heap, hheap⟩ := s.setEntry_eq l.items l.len v
      simp only [appendAt, if_neg hfull, hheap, setHeader]
    · simp only [appendAt, if_neg hfull, setEntry_shifted]
      rfl

theorem listAdd_lifts (h : r.Agrees s.memory.roots) (p : Pointer) (v : Boxed) :
    s.Lifts pl r fun s => (Pointer.null, s.listAdd p v) := by
  simp only [Lifts, listAdd, show (s.shifted pl r).memory.heap = s.memory.heap from rfl]
  split
  · exact appendAt_lifts h _ _ _
  · exact Lifts.keeps (x := fun s => (Pointer.null, s)) rfl rfl

end Session

open Session

theorem Request.carry_lifts {s : Session} (pl : Plan) (h : r.Agrees s.memory.roots) (q : Request) : s.Lifts pl r q.carry := by
  cases q with
  | none => exact .keeps rfl rfl
  | collect =>
    exact .keeps rfl (congrArg (fun m => (Pointer.null, pl.front { s with memory := m })) (Memory.collect_withRoots h))
  | alloc size content fallback => exact allocOr_lifts h size content fallback
  | add p v => exact listAdd_lifts h p v
  | set p i v =>
    obtain ⟨heap, hheap⟩ := s.listSet_eq p i v
    refine .keeps ?_ ?_
    · simp only [carry, hheap]
    · simp only [carry, listSet_shifted]

theorem Request.carry_front (q : Request) (pl : Plan) (s : Session) :
    q.carry (pl.front s) = ((q.carry s).1, pl.front (q.carry s).2) := by
  obtain ⟨new, hroots, hcarry⟩ := q.carry_lifts pl (s := s) ⟨rfl, rfl⟩
  rw [← hroots] at hcarry
  exact hcarry

namespace Session

theorem control_withRoots (s : Session) (r : Roots) (b : Bytes) :
    (s.withRoots r).control b = (s.control b).withRoots r :=
  (control_atop s (s.withRoots r) b).trans (congrArg (withRoots · r) (control_atop s s b)).symm

end Session

theorem Entry.plan_withRoots (e : Entry) (args : List Value) (s : Session) (r : Roots) :
    e.plan args (s.withRoots r) = e.plan args s := by
  have hprint : ∀ b, counts ((s.withRoots r).print b) = counts (s.print b) := fun b =>
    (congrArg counts (print_atop s (s.withRoots r) b)).trans (congrArg counts (print_atop s s b)).symm
  cases e with
  | printLiteral | printString | printInteger | printFloat | printBool | printColor | printList | printAny =>
    exact hprint _
  | termSetFgColor | termSetBgColor | termResetColor | termSetCursor =>
    simp only [plan, setForeground, setBackground, resetColors, moveCursor, control_withRoots]
    rfl
  | termClear =>
    exact (congrArg (gives · .zero) (clearScreen_atop s (s.withRoots r))).trans
      (congrArg (gives · .zero) (clearScreen_atop s s)).symm
  | _ => rfl

theorem Entry.run_withRoots {e : Entry} (he : e.ordinary = true) (h : r.Agrees s.memory.roots) (args : List Value) :
    ∃ new, (e.run args s).2.memory.roots = s.memory.roots.extend new ∧
      e.run args (s.withRoots r) = ((e.run args s).1, (e.run args s).2.withRoots (r.extend new)) ∧
      (e.allocates = false → new = []) := by
  obtain ⟨new, hroots, hcarry⟩ := (e.plan args s).request.carry_lifts (e.plan args s) h
  have hrun : e.run args s = ((e.plan args s).result ((e.plan args s).request.carry s).1,
      (e.plan args s).front ((e.plan args s).request.carry s).2) := by
    rw [run_eq_carry he, Plan.carry, Request.carry_front]
  refine ⟨new, ?_, ?_, fun hno => ?_⟩
  · rw [hrun]
    exact hroots
  · rw [hrun, run_eq_carry he, plan_withRoots, Plan.carry]
    exact congrArg (fun x => ((e.plan args s).result x.1, x.2)) hcarry
  · have hsame := (e.plan args s).request.roots_carry (grows_plan hno args s) s
    rw [hroots] at hsame
    have hsize := congrArg (fun x => x.temps.size) hsame
    simp only [extend, Array.size_append, List.size_toArray] at hsize
    exact List.length_eq_zero_iff.mp (by omega)

/-! ### Idle frames -/

namespace Roots

/-- Two root stacks along the frames of one function, innermost first. -/
inductive Padded : List Bool → Roots → Roots → Prop where
  | none : r'.Agrees r → r.depth ≤ r'.depth → Padded [] r' r
  | idle {flags : List Bool} {r' r : Roots} {frames : Array RootFrame} :
      r'.frames = frames.push ⟨r'.named.size, r'.temps.size⟩ → Padded flags { r' with frames } r →
      Padded (true :: flags) r' r
  | shared {flags : List Bool} {r' r : Roots} {f : RootFrame} {frames' frames : Array RootFrame} :
      r'.frames = frames'.push f → r.frames = frames.push f → f.named ≤ r.named.size →
      f.temps ≤ r.temps.size → r'.Agrees r →
      Padded flags { r'.cutTo f with frames := frames' } { r.cutTo f with frames := frames } →
      Padded (false :: flags) r' r

theorem cutTo_self (r : Roots) : r.cutTo ⟨r.named.size, r.temps.size⟩ = r := by
  simp [cutTo]

namespace Padded

variable {flags : List Bool} {r' r : Roots}

theorem agrees (h : Padded flags r' r) : r'.Agrees r := by
  induction h with
  | none ha _ => exact ha
  | idle _ _ ih => exact ⟨ih.named, ih.temps⟩
  | shared _ _ _ _ ha _ _ => exact ha

theorem depth_le (h : Padded flags r' r) : r.depth ≤ r'.depth := by
  induction h with
  | none _ hd => exact hd
  | idle hf _ ih =>
    simp only [depth, hf, Array.size_push] at ih ⊢
    omega
  | shared hf' hf _ _ _ _ ih =>
    simp only [depth, hf', hf, Array.size_push] at ih ⊢
    omega

theorem save (h : Padded flags r' r) : Padded [] r'.save r.save :=
  .none ⟨h.agrees.named, h.agrees.temps⟩ h.depth_le

theorem openIdle (h : Padded flags r' r) : Padded (true :: flags) r'.openFrame.2 r :=
  .idle rfl h

theorem openShared (h : Padded flags r' r) : Padded (false :: flags) r'.openFrame.2 r.openFrame.2 := by
  have hsizes : RootFrame.mk r'.named.size r'.temps.size = ⟨r.named.size, r.temps.size⟩ := by
    rw [h.agrees.named, h.agrees.temps]
  have hframes : r'.openFrame.2.frames = r'.frames.push ⟨r.named.size, r.temps.size⟩ := by
    rw [← hsizes]
    rfl
  refine .shared hframes (show r.openFrame.2.frames = r.frames.push _ from rfl) (Nat.le_refl _) (Nat.le_refl _)
    ⟨h.agrees.named, h.agrees.temps⟩ ?_
  have hkept : { r'.openFrame.2.cutTo ⟨r.named.size, r.temps.size⟩ with frames := r'.frames } = r' := by
    rw [← hsizes]
    exact congrArg (fun x => { x with frames := r'.frames }) (cutTo_self r'.openFrame.2)
  have htrimmed : { r.openFrame.2.cutTo ⟨r.named.size, r.temps.size⟩ with frames := r.frames } = r :=
    congrArg (fun x => { x with frames := r.frames }) (cutTo_self r.openFrame.2)
  rw [hkept, htrimmed]
  exact h

theorem closeIdle (h : Padded (true :: flags) r' r) :
    ∃ older, r'.closeFrame = (Option.none, older) ∧ older.marks = r'.marks ∧ Padded flags older r := by
  cases h with
  | @idle _ _ _ frames hf h =>
    refine ⟨{ r' with frames }, ?_, rfl, h⟩
    simp only [closeFrame, hf, Array.back?_push, cutTo_self, Array.pop_push]

theorem closeShared (h : Padded (false :: flags) r' r) :
    ∃ older' older, r'.closeFrame = (Option.none, older') ∧ r.closeFrame = (Option.none, older) ∧
      older'.marks = r'.marks ∧ older.marks = r.marks ∧ Padded flags older' older := by
  cases h with
  | @shared _ _ _ f frames' frames hf' hf _ _ _ h =>
    refine ⟨{ r'.cutTo f with frames := frames' }, { r.cutTo f with frames := frames }, ?_, ?_, rfl, rfl, h⟩
    · simp only [closeFrame, hf', Array.back?_push, Array.pop_push]
    · simp only [closeFrame, hf, Array.back?_push, Array.pop_push]

theorem change (h : Padded (false :: flags) r' r) (hframes' : r₁'.frames = r'.frames) (hframes : r₁.frames = r.frames)
    (ha : r₁'.Agrees r₁) (hcut : ∀ f ∈ r.frames.back?, f.named ≤ r.named.size → f.temps ≤ r.temps.size →
      f.named ≤ r₁.named.size ∧ f.temps ≤ r₁.temps.size ∧
        r₁.named.shrink f.named = r.named.shrink f.named ∧ r₁.temps.shrink f.temps = r.temps.shrink f.temps)
    (hmarks' : r₁'.marks = r'.marks) (hmarks : r₁.marks = r.marks) : Padded (false :: flags) r₁' r₁ := by
  cases h with
  | @shared _ _ _ f frames' frames hf' hf hnamed htemps hagrees h =>
    obtain ⟨hn, ht, hcutNamed, hcutTemps⟩ := hcut f (by rw [hf, Array.back?_push]; rfl) hnamed htemps
    refine .shared (hframes'.trans hf') (hframes.trans hf) hn ht ha ?_
    have hsame : { r₁.cutTo f with frames := frames } = { r.cutTo f with frames := frames } := by
      simp only [cutTo, hcutNamed, hcutTemps, hmarks]
    have hsame' : { r₁'.cutTo f with frames := frames' } = { r'.cutTo f with frames := frames' } := by
      simp only [cutTo, ha.named, ha.temps, hagrees.named, hagrees.temps, hcutNamed, hcutTemps, hmarks']
    rw [hsame, hsame']
    exact h

theorem extend (h : Padded flags r' r) (hnew : new ≠ [] → flags.head? = some false) :
    Padded flags (r'.extend new) (r.extend new) := by
  by_cases hempty : new = []
  · rw [hempty, extend_nil, extend_nil]
    exact h
  obtain ⟨flags, rfl⟩ : ∃ rest, flags = false :: rest := by
    cases flags with
    | nil => exact nomatch hnew hempty
    | cons b rest => exact ⟨rest, by rw [Option.some.inj (hnew hempty)]⟩
  refine h.change rfl rfl ⟨h.agrees.named, ?_⟩ (fun f _ hn ht => ⟨hn, ?_, rfl, ?_⟩) rfl rfl
  · simp only [extend, h.agrees.temps]
  · simp only [extend, Array.size_append]
    omega
  · simp [extend, Array.extract_append, Nat.sub_eq_zero_of_le ht]

theorem addNamed (i : Nat) (h : Padded (false :: flags) r' r) :
    Padded (false :: flags) (r'.addNamed i) (r.addNamed i) := by
  refine h.change rfl rfl ⟨?_, h.agrees.temps⟩ (fun f _ hn ht => ⟨?_, ht, ?_, rfl⟩) rfl rfl
  · simp only [Roots.addNamed, h.agrees.named]
  · simp only [Roots.addNamed, Array.size_push]
    omega
  · simp [Roots.addNamed, hn]

theorem flush (h : Padded (false :: flags) r' r) : Padded (false :: flags) r'.flush r.flush := by
  refine h.change rfl rfl ⟨h.agrees.named, ?_⟩ (fun f hf hn ht => ⟨hn, ?_, rfl, ?_⟩) rfl rfl
  · cases h with
    | shared hf' hf _ _ ha _ => simp only [Roots.flush, hf', hf, Array.back?_push, ha.temps]
  · rw [Option.mem_def] at hf
    simp [Roots.flush, hf, ht]
  · rw [Option.mem_def] at hf
    simp [Roots.flush, hf]

end Padded

end Roots

end Blockwork
