import Blockwork.Proofs.Moves
import Blockwork.Proofs.Rooting.Calls
import Blockwork.Proofs.Tracing.History
import Blockwork.Proofs.Tracing.Programs
import Blockwork.Proofs.Tracing.Standing

/-! # Running functions and their variables
Where each function that runs or waits stands, that its registers hold what they are for, and its slots the
values that its variables were given last. -/

namespace Blockwork.Tracing

open Typing Instr Event

structure Registers (W : World) (D : List Reg) (a : Activation) : Prop where
  size : a.regs.size = W.kinds.length
  kept : ∀ r c, W.kinds[r]? = some c → a.get r = .zero ∨ (a.get r).content = c
  written : ∀ r ∈ D, ∀ c, W.kinds[r]? = some c → (a.get r).content = c

namespace Registers

variable {W : World} {D : List Reg} {a : Activation} {r d : Reg} {c : Content}

theorem congr (h : Registers W D a) (hregs : a'.regs = a.regs) : Registers W D a' := by
  have hget : ∀ r, a'.get r = a.get r := fun r => by rw [Activation.get, Activation.get, hregs]
  exact ⟨hregs ▸ h.size, fun r c hr => by rw [hget]; exact h.kept r c hr,
    fun r hr c hc => by rw [hget]; exact h.written r hr c hc⟩

theorem mono (h : Registers W D a) (hD : D' ⊆ D) : Registers W D' a :=
  ⟨h.size, h.kept, fun r hr => h.written r (hD hr)⟩

theorem content (h : Registers W D a) (hr : Has W.kinds D r c) : (a.get r).content = c :=
  h.written r hr.2 c hr.1

theorem set (h : Registers W D a) (hd : W.kinds[d]? = some c) (hv : v.content = c) :
    Registers W (d :: D) (a.set d v) ∧ (a.set d v).get d = v := by
  have hsize : d < a.regs.size := by
    rw [h.size]
    exact (List.getElem?_eq_some_iff.mp hd).1
  have hself := a.get_set_self d v hsize
  refine ⟨⟨(a.size_regs_set d v).trans h.size, fun r c' hr => ?_, fun r hr c' hc => ?_⟩, hself⟩
  · by_cases hrd : r = d
    · subst hrd
      cases hd.symm.trans hr
      exact .inr (by rw [hself, hv])
    · rw [a.get_set_ne d r v hrd]
      exact h.kept r c' hr
  · by_cases hrd : r = d
    · subst hrd
      cases hd.symm.trans hc
      rw [hself, hv]
    · rw [a.get_set_ne d r v hrd]
      exact h.written r ((List.mem_cons.mp hr).resolve_left hrd) c' hc

theorem start (hsize : W.kinds.length = f.registers) (hparams : ∀ i < args.length, W.kinds[i]? = some (.value .any))
    (hargs : ∀ v ∈ args, v.content = .value .any) :
    Registers W (List.range args.length) (Machine.start f args base d) := by
  have hle : args.length ≤ f.registers := by
    rcases Nat.eq_zero_or_pos args.length with hzero | hpos
    · omega
    · have hlast := (List.getElem?_eq_some_iff.mp (hparams (args.length - 1) (by omega))).1
      omega
  have hget : ∀ r, (Machine.start f args base d).get r = args.getD r .zero := by
    intro r
    simp only [Machine.start, Activation.get, Array.getD_eq_getD_getElem?, Array.getElem?_append,
      List.size_toArray, List.getElem?_toArray, Array.getElem?_replicate, List.getD_eq_getElem?_getD]
    by_cases hr : r < args.length
    · simp only [hr, if_true]
    · simp only [hr, if_false, List.getElem?_eq_none (Nat.not_lt.mp hr)]
      split <;> rfl
  have hwritten : ∀ r < args.length, ((Machine.start f args base d).get r).content = .value .any := by
    intro r hr
    rw [hget, List.getD_eq_getElem?_getD, List.getElem?_eq_getElem hr]
    exact hargs _ (List.getElem_mem hr)
  refine ⟨?_, fun r c hr => ?_, fun r hr c hc => ?_⟩
  · simp only [Machine.start, Array.size_append, List.size_toArray, Array.size_replicate]
    omega
  · by_cases hlt : r < args.length
    · cases (hparams r hlt).symm.trans hr
      exact .inr (hwritten r hlt)
    · refine .inl ?_
      rw [hget, List.getD_eq_getElem?_getD, List.getElem?_eq_none (Nat.not_lt.mp hlt)]
      rfl
  · have hlt := List.mem_range.mp hr
    cases (hparams r hlt).symm.trans hc
    exact hwritten r hlt

end Registers

structure Locals (L : List Event) (mem : Memory) (birth base room : Nat) (xs : List Stored) : Prop where
  room : xs.length ≤ room
  nodup : xs.Nodup
  isLocal : ∀ x ∈ xs, x.isGlobal = false
  held : ∀ i x, xs[i]? = some x → Remembers L birth x (mem.slot (base + i))

namespace Locals

variable {L : List Event} {mem : Memory} {birth base room : Nat} {xs : List Stored} {x : Stored} {e : Event}

theorem nil (L : List Event) (mem : Memory) (birth base room : Nat) : Locals L mem birth base room [] :=
  ⟨Nat.zero_le _, List.nodup_nil, List.forall_mem_nil _, fun i x hx => by cases hx⟩

theorem fewer (h : Locals L mem birth base room xs) (hys : ys <+: xs) : Locals L mem birth base room ys where
  room := Nat.le_trans hys.length_le h.room
  nodup := h.nodup.sublist hys.sublist
  isLocal := fun x hx => h.isLocal x (hys.subset hx)
  held := fun i x hx => h.held i x (getElem?_mono hys hx)

theorem later (h : Locals L mem birth base room xs) (hnew : ∀ e ∈ new, e.invocation.birth ≠ birth)
    (hmem : ∀ i < room, mem'.slot (base + i) = mem.slot (base + i)) : Locals (new ++ L) mem' birth base room xs where
  room := h.room
  nodup := h.nodup
  isLocal := h.isLocal
  held := fun i x hx => by
    have hlt := (List.getElem?_eq_some_iff.mp hx).1
    rw [hmem i (Nat.lt_of_lt_of_le hlt h.room)]
    exact (h.held i x hx).later (h.isLocal x (List.mem_of_getElem? hx)) hnew

theorem skip (h : Locals L mem birth base room xs) (he : ∀ x ∈ xs, e.writes x = false ∧ e.closes x = false)
    (hmem : ∀ i < room, mem'.slot (base + i) = mem.slot (base + i)) : Locals (e :: L) mem' birth base room xs where
  room := h.room
  nodup := h.nodup
  isLocal := h.isLocal
  held := fun i x hx => by
    have hlt := (List.getElem?_eq_some_iff.mp hx).1
    have hmem' := List.mem_of_getElem? hx
    rw [hmem i (Nat.lt_of_lt_of_le hlt h.room)]
    exact (h.held i x hx).skip (h.isLocal x hmem') (.inr (he x hmem'))

theorem assigned (h : Locals L mem birth base room xs) (hi : xs[i]? = some x) (hb : e.invocation.birth = birth)
    (he : e.access = .assigns x r) (htyped : e.value.content = .value x.ty) (hsize : base + room ≤ mem.slots.size) :
    Locals (e :: L) (mem.setSlot (base + i) e.value) birth base room xs where
  room := h.room
  nodup := h.nodup
  isLocal := h.isLocal
  held := fun j y hy => by
    by_cases hij : j = i
    · subst hij
      cases hi.symm.trans hy
      have hlt := (List.getElem?_eq_some_iff.mp hi).1
      have hroom := h.room
      rw [Memory.slot_setSlot_self _ (by omega)]
      exact (h.held j x hi).assigned hb he htyped
    · have hxy : x ≠ y := by
        rintro rfl
        exact hij ((List.getElem?_inj (List.getElem?_eq_some_iff.mp hy).1 h.nodup).mp (hy.trans hi.symm))
      rw [Memory.slot_setSlot (by omega)]
      exact (h.held j y hy).skip (h.isLocal y (List.mem_of_getElem? hy)) (.inr (writes_other (.inr he) hxy))

theorem declared (h : Locals L mem birth base room xs) (hx : x.isGlobal = false) (hnew : x ∉ xs)
    (hroom : xs.length < room) (hb : e.invocation.birth = birth) (he : e.access = .declares x r)
    (htyped : e.value.content = .value x.ty) (hsize : base + room ≤ mem.slots.size) :
    Locals (e :: L) (mem.setSlot (base + xs.length) e.value) birth base room (xs ++ [x]) where
  room := by
    rw [List.length_append]
    exact hroom
  nodup := by
    rw [List.nodup_append]
    refine ⟨h.nodup, by simp, fun y hy z hz => ?_⟩
    obtain rfl := List.mem_singleton.mp hz
    rintro rfl
    exact hnew hy
  isLocal := fun y hy => by
    rcases List.mem_append.mp hy with hy | hy
    · exact h.isLocal y hy
    · obtain rfl := List.mem_singleton.mp hy
      exact hx
  held := fun j y hy => by
    by_cases hj : j < xs.length
    · rw [List.getElem?_append_left hj] at hy
      have hmem := List.mem_of_getElem? hy
      have hxy : x ≠ y := by
        rintro rfl
        exact hnew hmem
      rw [Memory.slot_setSlot (by omega)]
      exact (h.held j y hy).skip (h.isLocal y hmem) (.inr (writes_other (.inl he) hxy))
    · have hlast : j = xs.length := by
        have hlt := (List.getElem?_eq_some_iff.mp hy).1
        rw [List.length_append, List.length_singleton] at hlt
        omega
      subst hlast
      rw [List.getElem?_append_right (Nat.le_refl _), Nat.sub_self] at hy
      cases hy
      rw [Memory.slot_setSlot_self _ (by omega)]
      exact .declared hb he htyped

end Locals

/-! ### Functions that run and functions that wait -/

def Layout.Describes {p : Program} {code : ProgramCode} (Y : Layout p code) (fn : Option Nat) (W : World) : Prop :=
  ∃ n f, Described Y.arity Y.cells (p.bindingsOf fn) (p.marksOf fn) n f W

theorem main_bindingsOf (p : Program) (fn : Option Nat) : (p.bindingsOf fn).main = true ↔ fn = none := by
  cases fn with
  | none => simp [Program.bindingsOf]
  | some i =>
    have hstarts : ∀ (B : Bindings) (mss : List (List Mark)) (i : Nat),
        ((B.starts mss).getD i { main := false }).main = false := by
      intro B mss
      induction mss generalizing B with
      | nil => exact fun i => rfl
      | cons ms rest ih =>
        intro i
        cases i with
        | zero => rfl
        | succ i => exact ih _ i
    rw [Program.bindingsOf, hstarts]
    simp

section

variable {p : Program} {code : ProgramCode}

theorem Layout.Describes.main {Y : Layout p code} (h : Y.Describes fn W) : W.main = true ↔ fn = none := by
  obtain ⟨n, f, hf⟩ := h
  rw [World.main, hf.ctx]
  exact main_bindingsOf p fn

/-- A function that runs or waits. -/
structure Frame (Y : Layout p code) (L : List Event) (mem : Memory) (D : List Reg) (inv : Invocation) (W : World)
    (F : Facts) (a : Activation) : Prop where
  told : Y.Describes inv.function W
  stands : StandsAt W inv.pc F a.code a.konts
  regs : Registers W D a
  low : Y.cells.length ≤ a.base
  locals : Locals L mem inv.birth a.base W.slots F.locals
  declared : W.main = true → ∀ i < F.cells, ∀ x, Y.cells[i]? = some x → ∃ e ∈ L, e.declares x = true

/-- Functions that wait, innermost first: the first of them for a result in register `d`. -/
inductive Stack (Y : Layout p code) (L : List Event) (mem : Memory) :
    Reg → Nat → Nat → List Activation → List Invocation → Prop where
  | nil : Stack Y L mem d top bound [] []
  | cons {d : Reg} {top bound : Nat} {a : Activation} {as : List Activation} {inv : Invocation}
      {invs : List Invocation} {W : World} {F : Facts} {D : List Reg} : Frame Y L mem D inv W F a →
      F.written ⊆ d :: D → W.kinds[d]? = some (.value .any) → a.base + W.slots ≤ top → inv.birth < bound →
      (inv.function = none ↔ as = []) → Stack Y L mem a.dst a.base inv.birth as invs →
      Stack Y L mem d top bound (a :: as) (inv :: invs)

variable {Y : Layout p code} {L : List Event} {mem : Memory} {D : List Reg} {inv : Invocation} {W : World} {F : Facts}
  {a : Activation}

theorem Frame.later (h : Frame Y L mem D inv W F a) (hnew : ∀ e ∈ new, e.invocation.birth ≠ inv.birth)
    (hmem : ∀ i < W.slots, mem'.slot (a.base + i) = mem.slot (a.base + i)) : Frame Y (new ++ L) mem' D inv W F a :=
  { h with
    locals := h.locals.later hnew hmem
    declared := fun hm i hi x hx => by
      obtain ⟨e, he, hdeclares⟩ := h.declared hm i hi x hx
      exact ⟨e, List.mem_append_right _ he, hdeclares⟩ }

theorem Stack.later (h : Stack Y L mem d top bound as invs) (hnew : ∀ e ∈ new, bound ≤ e.invocation.birth)
    (hmem : ∀ i < top, Y.cells.length ≤ i → mem'.slot i = mem.slot i) :
    Stack Y (new ++ L) mem' d top bound as invs := by
  induction h with
  | nil => exact .nil
  | @cons d top bound a as inv invs W F D hframe hwritten hd htop hbirth hbottom _ ih =>
    refine .cons (hframe.later (fun e he => ?_) fun i hi => ?_) hwritten hd htop hbirth hbottom
      (ih (fun e he => ?_) fun i hi hlow => ?_)
    · have hle := hnew e he
      omega
    · have hlow := hframe.low
      exact hmem _ (by omega) (by omega)
    · have hle := hnew e he
      omega
    · exact hmem i (by omega) hlow

def CellsHold (Y : Layout p code) (L : List Event) (mem : Memory) : Prop :=
  ∀ i x, Y.cells[i]? = some x → CellHolds L x (mem.slot i)

/-- A running program: the function that runs, with the invocation `inv`, and those that wait for it. -/
structure Traced (Y : Layout p code) (n : Nat) (m : Machine) (inv : Invocation) (invs : List Invocation)
    (W : World) (F : Facts) (L : List Event) : Prop where
  frame : Frame Y L m.session.memory F.written inv W F m.active
  top : m.active.base + W.slots ≤ m.session.memory.slots.size
  birth : inv.birth ≤ n
  bottom : inv.function = none ↔ m.waiting = []
  stack : Stack Y L m.session.memory m.active.dst m.active.base inv.birth m.waiting invs
  cells : CellsHold Y L m.session.memory

end

end Blockwork.Tracing
