import Blockwork.Proofs.Rooting.Held
import Blockwork.Machine.Step

/-! # What facts say of a running function
The facts that follow code are read here as statements about registers, variables and memory. -/

namespace Blockwork

open Memory Value

theorem Value.readAs_cases (v : Value) (ty : ValueType) : v.readAs ty = zeroOf ty ∨ v.readAs ty = v := by
  cases v with
  | zero => exact Or.inl rfl
  | _ => exact Or.inr rfl

theorem Value.pointer_zeroOf (ty : ValueType) : (zeroOf ty).pointer = .null := by
  cases ty <;> rfl

theorem Value.direct_zeroOf (ty : ValueType) : (zeroOf ty).Direct := by
  cases ty <;> simp [Value.Direct, zeroOf, refs, pointer]

/-! ### Memory with other roots -/

namespace Memory

def withRoots (m : Memory) (r : Roots) : Memory :=
  { m with roots := r }

theorem Sound.withRoots {m : Memory} (h : m.Sound) (hn : ∀ i ∈ r.named, m.heap.Live (m.slot i).pointer)
    (ht : ∀ p ∈ r.temps, m.heap.Live p) : (m.withRoots r).Sound :=
  ⟨h.tidy, ⟨hn, ht, h.closed.stored⟩, h.below, h.lists⟩

theorem Sound.withSlots {m : Memory} {slots : Array Value} (h : m.Sound)
    (hn : ∀ i ∈ m.roots.named, m.heap.Live (slots.getD i .zero).pointer) : Sound { m with slots } :=
  ⟨h.tidy, ⟨hn, h.closed.temps, h.closed.stored⟩, h.below, h.lists⟩

theorem kept_withRoots (m : Memory) (r r' : Roots) : Kept r m (m.withRoots r') :=
  ⟨fun _ _ => rfl, fun _ _ => rfl⟩

theorem slot_setSlot {m : Memory} (hij : j ≠ i) : (m.setSlot i v).slot j = m.slot j := by
  simp only [slot, setSlot, Array.getD_eq_getD_getElem?, Array.getElem?_setIfInBounds]
  rw [if_neg hij.symm]

theorem slot_setSlot_self {m : Memory} (v : Value) (hi : i < m.slots.size) : (m.setSlot i v).slot i = v := by
  simp [slot, setSlot, Array.getD_eq_getD_getElem?, hi]

theorem kept_setSlot (h : i ∉ r.named) : Kept r m (m.setSlot i v) :=
  ⟨fun _ hj => slot_setSlot fun heq => h (heq ▸ hj), fun _ _ => rfl⟩

end Memory

namespace Flow

/-- Rules under which pointers are followed: stores forget what was loaded before them, and cells belong
to the main function. -/
def Rules.Careful (c : Rules) : Prop :=
  c.strict = true ∧ c.isSealed = true

/-! ### Sites -/

/-- A running function, as facts about it are read: its rules, the cells, the roots at its entry, and
where its slots lie. -/
structure Site where
  rules : Rules
  cells : List Bool
  entry : Roots
  base : Nat
  slots : Nat

namespace Site

variable (σ : Site)

def place : Place → Nat
  | .slot i => σ.base + i
  | .global i => i

def Fits (m : Memory) (r : Roots) : Word → Value → Prop
  | .plain, v => v.refs = []
  | .heap, v => v.Direct ∧ m.Held r v.pointer
  | .element, v => m.HeldValue r v
  | .place pl, v => v = .place (σ.place pl)

/-- What facts say of the roots: variables are those of the table and of the function, and each that holds pointers
is registered. -/
structure Anchored (f : Facts) (r : Roots) : Prop where
  table : ∀ i heap, f.places (.global i) = some heap → σ.cells[i]? = some heap
  room : ∀ i heap, f.places (.slot i) = some heap → i < σ.slots
  named : ∀ pl, f.places pl = some true → (σ.rules.main = false ∧ ∃ i, pl = .global i) ∨ σ.place pl ∈ r.named

structure Means (f : Facts) (r : Roots) (m : Memory) (get : Reg → Value) : Prop
    extends σ.Anchored f r where
  regs : ∀ x w, f.regs x = some w → σ.Fits m r w (get x)
  plain : ∀ i, f.places (.slot i) = some false → (m.slot (σ.base + i)).refs = []

def Params (m : Memory) (get : Reg → Value) : Prop :=
  ∀ x < σ.rules.params, (get x).Direct ∧ m.Held σ.entry (get x).pointer

/-- A variable that waits to be registered holds a pointer that roots keep alive. -/
structure Awaits (f : Facts) (m : Memory) : Prop where
  room : ∀ i, f.fresh = some (.slot i) → i < σ.slots
  cell : ∀ i, f.fresh = some (.global i) → σ.rules.main = true ∧ f.level = .top ∧ σ.cells[i]? = some true
  held : ∀ pl, f.fresh = some pl → m.Held m.roots (m.slot (σ.place pl)).pointer

end Site

/-- Memory between two instructions: sound, with named roots among the variables, and with cells that
hold what the table says. -/
structure Orderly (cells : List Bool) (m : Memory) : Prop where
  sound : m.Sound
  direct : ∀ i, (m.slot i).Direct
  bound : ∀ i ∈ m.roots.named, i < m.slots.size
  plain : ∀ i, cells[i]? = some false → (m.slot i).refs = []

theorem Orderly.after (h : Orderly cells m) (ha : After m m') : Orderly cells m' where
  sound := ha.sound
  direct := fun i => by
    rw [slot_congr ha.slots]
    exact h.direct i
  bound := fun i hi => by
    rw [ha.slots]
    exact h.bound i (ha.named ▸ hi)
  plain := fun i hi => by
    rw [slot_congr ha.slots]
    exact h.plain i hi

theorem Orderly.withRoots (h : Orderly cells m) (hr : r.Sub m.roots) : Orderly cells (m.withRoots r) where
  sound := h.sound.withRoots (fun i hi => h.sound.closed.named i (hr.named i hi))
    fun p hp => h.sound.closed.temps p (hr.temps p hp)
  direct := h.direct
  bound := fun i hi => h.bound i (hr.named i hi)
  plain := h.plain

theorem Orderly.withSlots {slots : Array Value} (h : Orderly cells m)
    (hslot : ∀ i, slot { m with slots } i = m.slot i ∨ (slot { m with slots } i).Direct ∧
      m.heap.Live (slot { m with slots } i).pointer ∧ (cells[i]? = some false → (slot { m with slots } i).refs = []))
    (hbound : ∀ i ∈ m.roots.named, i < slots.size) : Orderly cells { m with slots } := by
  refine ⟨h.sound.withSlots fun i hi => ?_, fun i => ?_, hbound, fun i hi => ?_⟩
  · rcases hslot i with hsame | ⟨-, hlive, -⟩
    · exact (congrArg (m.heap.Live ·.pointer) hsame).mpr (h.sound.closed.named i hi)
    · exact hlive
  · exact (hslot i).elim (fun hsame => hsame ▸ h.direct i) And.left
  · exact (hslot i).elim (fun hsame => hsame ▸ h.plain i hi) fun hnew => hnew.2.2 hi

theorem Orderly.setSlot (h : Orderly cells m) (hd : v.Direct)
    (hv : m.Held m.roots v.pointer) (hcell : cells[i]? = some false → v.refs = []) :
    Orderly cells (m.setSlot i v) := by
  refine h.withSlots (fun j => ?_) fun j hj => ?_
  · -- what a variable holds afterwards it held before, or it is the new value
    by_cases hji : j = i
    · subst hji
      by_cases hj : j < m.slots.size
      · have hself : (m.setSlot j v).slot j = v := slot_setSlot_self v hj
        exact Or.inr (hself.symm ▸ ⟨hd, (hv.safe (.refl _)).live h.sound, hcell⟩)
      · exact Or.inl (by simp [slot, Array.getD_eq_getD_getElem?, hj])
    · exact Or.inl (slot_setSlot hji)
  · rw [Array.size_setIfInBounds]
    exact h.bound j hj

def Guarded (cells : List Bool) (m : Memory) (fresh : Option Place) : Prop :=
  ∀ i, cells[i]? = some true → (m.slot i).refs = [] ∨ i ∈ m.roots.named ∨ fresh = some (.global i)

namespace Site

structure Lies (σ : Site) : Prop where
  below : σ.cells.length ≤ σ.base
  outer : ∀ i ∈ σ.entry.named, i < σ.base
  main : σ.rules.main = true → σ.entry.named = #[]

structure Stands (σ : Site) (m : Memory) : Prop extends σ.Lies where
  size : σ.base + σ.slots = m.slots.size

structure Holds (σ : Site) (f : Facts) (m : Memory) (get : Reg → Value) : Prop where
  orderly : Orderly σ.cells m
  stands : σ.Stands m
  sub : σ.entry.Sub m.roots
  params : σ.Params m get
  means : σ.Means f m.roots m get
  awaits : σ.Awaits f m
  guarded : Guarded σ.cells m f.fresh

/-- What a step leaves to the functions that wait: all they hold, and their variables. -/
structure Spares (σ : Site) (m m' : Memory) : Prop where
  kept : Kept σ.entry m m'
  slots : σ.rules.main = false → ∀ i < σ.base, m'.slot i = m.slot i

variable {σ : Site} {f : Facts} {get : Reg → Value}

theorem Spares.refl (σ : Site) (m : Memory) : σ.Spares m m :=
  ⟨.refl _ _, fun _ _ _ => rfl⟩

theorem Fits.heldValue (h : σ.Fits m r w v) : m.HeldValue r v := by
  cases w with
  | plain => exact .of_refs h
  | heap => exact Held.of_direct h.1 h.2
  | element => exact h
  | place pl =>
    cases h
    exact .of_refs rfl

theorem Fits.mono (hk : Kept r m m') (hr : r.Sub r') (h : σ.Fits m r w v) : σ.Fits m' r' w v := by
  cases w with
  | plain => exact h
  | heap => exact ⟨h.1, (h.2.kept hk).mono hr⟩
  | element => exact HeldValue.mono hr (HeldValue.kept hk h)
  | place pl => exact h

theorem Fits.zero (hw : ∀ pl, w ≠ .place pl) : σ.Fits m r w .zero := by
  cases w with
  | plain => rfl
  | heap => exact ⟨direct_of_refs rfl, .null⟩
  | element => exact .of_refs rfl
  | place pl => exact absurd rfl (hw pl)

theorem Fits.direct (h : σ.Fits m r (wordOf ty) v) : v.Direct := by
  unfold wordOf at h
  split at h
  · exact h.1
  · exact direct_of_refs h

theorem Fits.held (h : σ.Fits m r (wordOf ty) v) : m.Held r v.pointer := by
  unfold wordOf at h
  split at h
  · exact h.2
  · exact Held.pointer (.of_refs h)

theorem Holds.fits (h : σ.Holds f m get) (hx : f.Knows σ.rules x w) : σ.Fits m m.roots w (get x) := by
  rcases hx with ⟨hlt, rfl⟩ | hx
  · obtain ⟨hdirect, hheld⟩ := h.params x hlt
    exact ⟨hdirect, hheld.mono h.sub⟩
  · exact h.means.regs x w hx

theorem Anchored.within (hf : f.Within g) (h : σ.Anchored g r) : σ.Anchored f r :=
  ⟨fun i heap hp => h.table i heap (hf.places _ _ hp), fun i heap hp => h.room i heap (hf.places _ _ hp),
    fun pl hp => h.named pl (hf.places _ _ hp)⟩

theorem Means.within (hf : f.Within g) (h : σ.Means g r m get) : σ.Means f r m get :=
  ⟨h.toAnchored.within hf, fun x w hx => h.regs x w (hf.regs x w hx), fun i hp => h.plain i (hf.places _ _ hp)⟩

theorem Holds.weaken (hf : f.Weaker g) (h : σ.Holds g m get) : σ.Holds f m get where
  orderly := h.orderly
  stands := h.stands
  sub := h.sub
  params := h.params
  means := h.means.within hf.toWithin
  awaits := by
    refine ⟨fun i hi => h.awaits.room i (hf.fresh ▸ hi), fun i hi => ?_, fun pl hi => h.awaits.held pl (hf.fresh ▸ hi)⟩
    obtain ⟨hmain, hlevel, hcell⟩ := h.awaits.cell i (hf.fresh ▸ hi)
    exact ⟨hmain, hf.level.trans hlevel, hcell⟩
  guarded := hf.fresh ▸ h.guarded

theorem Awaits.none (hf : f.fresh = none) : σ.Awaits f m := by
  constructor <;> intro i hi <;> rw [hf] at hi <;> cases hi

theorem Holds.falls (hw : f.Within g) (hg : g.fresh = none) (hf : f.fresh = none) (h : σ.Holds g m get) :
    σ.Holds f m get where
  orderly := h.orderly
  stands := h.stands
  sub := h.sub
  params := h.params
  means := h.means.within hw
  awaits := .none hf
  guarded := by
    have hguard := h.guarded
    rw [hg] at hguard
    rw [hf]
    exact hguard

theorem Holds.inner (hf : f.fresh = none) (h : σ.Holds f m get) : σ.Holds f.inner m get :=
  have hw : f.inner.Within f := ⟨fun _ _ hx => hx, fun _ _ hx => hx⟩
  h.falls hw hf hf

theorem Holds.put (h : σ.Holds f m get) (hd : σ.rules.params ≤ d) (hget : ∀ x, x ≠ d → get' x = get x)
    (hv : σ.Fits m m.roots w (get' d)) : σ.Holds (f.put d w) m get' where
  orderly := h.orderly
  stands := h.stands
  sub := h.sub
  params := fun x hx => by
    rw [hget x (Nat.ne_of_lt (Nat.lt_of_lt_of_le hx hd))]
    exact h.params x hx
  means :=
    { table := h.means.table
      room := h.means.room
      named := h.means.named
      plain := h.means.plain
      regs := fun x w' hx => by
        by_cases hxd : x = d
        · simp only [Facts.put, hxd, if_true, Option.some.injEq] at hx
          rw [hxd, ← hx]
          exact hv
        · simp only [Facts.put, hxd, if_false] at hx
          rw [hget x hxd]
          exact h.means.regs x w' hx }
  awaits := ⟨h.awaits.room, h.awaits.cell, h.awaits.held⟩
  guarded := h.guarded

theorem Holds.after (h : σ.Holds f m get) (hf : f.fresh = none) (ha : After m m') : σ.Holds f m' get where
  orderly := h.orderly.after ha
  stands := ⟨h.stands.toLies, by rw [ha.slots]; exact h.stands.size⟩
  sub := h.sub.trans ha.sub
  params := fun x hx => ⟨(h.params x hx).1, (h.params x hx).2.kept (ha.kept h.sub)⟩
  means :=
    { table := h.means.table
      room := h.means.room
      named := fun pl hp => (h.means.named pl hp).imp id (ha.sub.named _)
      plain := fun i hi => by
        rw [slot_congr ha.slots]
        exact h.means.plain i hi
      regs := fun x w hx => (h.means.regs x w hx).mono (ha.kept (.refl _)) ha.sub }
  awaits := .none hf
  guarded := fun i hi => by
    rw [slot_congr ha.slots, ha.named]
    exact h.guarded i hi

theorem Holds.spares_after (h : σ.Holds f m get) (ha : After m m') : σ.Spares m m' :=
  ⟨ha.kept h.sub, fun _ i _ => slot_congr ha.slots i⟩

theorem Holds.withRoots (h : σ.Holds f m get) (hr : r.Sub m.roots) (he : σ.entry.Sub r)
    (hs : f.Settled) (hn : σ.Anchored f r) (hg : ∀ i, σ.cells[i]? = some true → i ∈ m.roots.named → i ∈ r.named) :
    σ.Holds f (m.withRoots r) get where
  orderly := h.orderly.withRoots hr
  stands := ⟨h.stands.toLies, h.stands.size⟩
  sub := he
  params := fun x hx => ⟨(h.params x hx).1, (h.params x hx).2.kept (kept_withRoots _ _ _)⟩
  means :=
    { table := h.means.table
      room := h.means.room
      named := hn.named
      plain := h.means.plain
      regs := fun x w hx => by
        obtain rfl := hs.regs x w hx
        exact h.means.regs x .plain hx }
  awaits := .none hs.fresh
  guarded := fun i hi => (h.guarded i hi).imp id (Or.imp (hg i hi) id)

theorem spares_withRoots (σ : Site) (m : Memory) (r : Roots) : σ.Spares m (m.withRoots r) :=
  ⟨kept_withRoots _ _ _, fun _ _ _ => rfl⟩

/-! ### Stores -/

structure Writes (σ : Site) (pl : Place) : Prop where
  slot : ∀ i, pl = .slot i → i < σ.slots
  cell : ∀ i, pl = .global i → σ.rules.main = true ∧ i < σ.cells.length

theorem place_ne (hb : σ.cells.length ≤ σ.base) (h : ∀ i, pl = .global i → i < σ.cells.length)
    (h' : ∀ i, pl' = .global i → i < σ.cells.length) (hne : pl ≠ pl') : σ.place pl ≠ σ.place pl' := by
  intro heq
  refine hne ?_
  cases pl with
  | slot i =>
    cases pl' with
    | slot j => exact congrArg _ (Nat.add_left_cancel heq)
    | global j =>
      have hj := h' j rfl
      simp only [place] at heq
      omega
  | global i =>
    have hi := h i rfl
    cases pl' with
    | slot j =>
      simp only [place] at heq
      omega
    | global j => exact congrArg _ heq

namespace Writes

theorem lt (h : σ.Writes pl) (hs : σ.Stands m) : σ.place pl < m.slots.size := by
  have hsize := hs.size
  have hbelow := hs.below
  cases pl with
  | slot i =>
    have hi := h.slot i rfl
    simp only [place]
    omega
  | global i =>
    have hi := (h.cell i rfl).2
    simp only [place]
    omega

theorem not_entry (h : σ.Writes pl) (hs : σ.Stands m) : σ.place pl ∉ σ.entry.named := by
  intro hmem
  cases pl with
  | slot i => exact absurd (hs.outer _ hmem) (Nat.not_lt.mpr (Nat.le_add_right _ _))
  | global i =>
    rw [hs.main (h.cell i rfl).1] at hmem
    exact absurd hmem (Array.not_mem_empty _)

theorem spares (h : σ.Writes pl) (hs : σ.Stands m) (v : Value) : σ.Spares m (m.setSlot (σ.place pl) v) := by
  refine ⟨kept_setSlot (h.not_entry hs), fun hmain i hi => slot_setSlot ?_⟩
  cases pl with
  | slot j =>
    simp only [place]
    omega
  | global j =>
    rw [(h.cell j rfl).1] at hmain
    cases hmain

theorem stands (hs : σ.Stands m) (i : Nat) (v : Value) : σ.Stands (m.setSlot i v) :=
  ⟨hs.toLies, by simpa only [setSlot, Array.size_setIfInBounds] using hs.size⟩

end Writes

theorem Holds.setSlot (h : σ.Holds f m get) (hw : σ.Writes pl) (hf : f.fresh = none) (hd : v.Direct)
    (hv : m.Held m.roots v.pointer) (hcell : ∀ i, pl = .global i → σ.cells[i]? = some false → v.refs = [])
    (hregs : ∀ x w, g.regs x = some w → w = .plain ∧ f.regs x = some .plain) (ha : σ.Anchored g m.roots)
    (hplain : ∀ j, g.places (.slot j) = some false →
      (pl = .slot j ∧ v.refs = []) ∨ (pl ≠ .slot j ∧ f.places (.slot j) = some false))
    (hawaits : σ.Awaits g (m.setSlot (σ.place pl) v))
    (hguard : ∀ i, pl = .global i → σ.cells[i]? = some true → i ∈ m.roots.named ∨ g.fresh = some (.global i)) :
    σ.Holds g (m.setSlot (σ.place pl) v) get where
  orderly := by
    refine h.orderly.setSlot hd hv fun hplace => ?_
    cases pl with
    | slot i =>
      have hlt := (List.getElem?_eq_some_iff.mp hplace).1
      exact absurd (Nat.lt_of_lt_of_le hlt h.stands.below) (Nat.not_lt.mpr (Nat.le_add_right _ _))
    | global i => exact hcell i rfl hplace
  stands := Writes.stands h.stands _ _
  sub := h.sub
  params := fun x hx => ⟨(h.params x hx).1, (h.params x hx).2.kept (hw.spares h.stands v).kept⟩
  means :=
    { ha with
      plain := fun j hj => by
        rcases hplain j hj with ⟨rfl, hrefs⟩ | ⟨hne, hj⟩
        · have hlt := hw.lt h.stands
          simp only [place] at hlt ⊢
          rw [slot_setSlot_self v hlt]
          exact hrefs
        · have hdiff : σ.place (.slot j) ≠ σ.place pl :=
            place_ne h.stands.below nofun (fun i hi => (hw.cell i hi).2) hne.symm
          exact (congrArg refs (slot_setSlot hdiff)).trans (h.means.plain j hj)
      regs := fun x w hx => by
        obtain ⟨rfl, hold⟩ := hregs x w hx
        exact h.means.regs x .plain hold }
  awaits := hawaits
  guarded := fun i hi => by
    by_cases hpl : pl = .global i
    · exact Or.inr (hguard i hpl hi)
    · have hlt : i < σ.cells.length := (List.getElem?_eq_some_iff.mp hi).1
      have hdiff : σ.place (.global i) ≠ σ.place pl :=
        place_ne h.stands.below (fun j hj => by cases hj; exact hlt) (fun j hj => (hw.cell j hj).2) (Ne.symm hpl)
      have hguarded := h.guarded i hi
      rw [hf] at hguarded
      have hsame : (m.setSlot (σ.place pl) v).slot i = m.slot i := slot_setSlot hdiff
      rw [hsame]
      rcases hguarded with hrefs | hnamed | hfresh
      · exact Or.inl hrefs
      · exact Or.inr (Or.inl hnamed)
      · cases hfresh

theorem stored_eq (hc : σ.rules.Careful) (f : Facts) : f.stored σ.rules = f.settle := by
  simp [Facts.stored, hc.1]

theorem settle_regs (h : f.settle.regs x = some w) : w = .plain ∧ f.regs x = some .plain := by
  obtain ⟨hreg, hw⟩ := Option.filter_eq_some_iff.mp h
  have hw : w = .plain := by simpa using hw
  exact ⟨hw, hw ▸ hreg⟩

theorem Holds.assign (hc : σ.rules.Careful) (h : σ.Holds f m get) (hf : f.fresh = none)
    (hx : f.Knows σ.rules x (wordOf ty)) (hp : f.places pl = some ty.isHeap)
    (hs : σ.rules.isSealed = true → σ.rules.main = false → ∀ i, pl ≠ .global i) :
    σ.Holds (f.stored σ.rules) (m.setSlot (σ.place pl) (get x)) get ∧ σ.Writes pl := by
  have hfits := h.fits hx
  have hw : σ.Writes pl := by
    refine ⟨fun i hi => h.means.room i _ (hi ▸ hp), fun i hi => ?_⟩
    refine ⟨?_, (List.getElem?_eq_some_iff.mp (h.means.table i _ (hi ▸ hp))).1⟩
    cases hmain : σ.rules.main with
    | true => rfl
    | false => exact absurd hi (hs hc.2 hmain i)
  refine ⟨?_, hw⟩
  have hplain : ty.isHeap = false → (get x).refs = [] := by
    intro hty
    simp only [wordOf, hty] at hfits
    exact hfits
  rw [stored_eq hc]
  refine h.setSlot hw hf hfits.direct hfits.held (fun i hi hcell => ?_) (fun y w => settle_regs)
    ⟨h.means.table, h.means.room, h.means.named⟩ (fun j hj => ?_) (.none hf) fun i hi hcell => ?_
  · have htable := h.means.table i _ (hi ▸ hp)
    rw [hcell] at htable
    exact hplain (Option.some.inj htable).symm
  · by_cases hpl : pl = .slot j
    · refine Or.inl ⟨hpl, hplain ?_⟩
      have hj : f.places (.slot j) = some false := hj
      rw [hpl, hj] at hp
      exact (Option.some.inj hp).symm
    · exact Or.inr ⟨hpl, hj⟩
  · have htable := h.means.table i _ (hi ▸ hp)
    rw [hcell] at htable
    have hheap : f.places pl = some true := by
      rw [hp]
      exact congrArg some (Option.some.inj htable).symm
    rcases h.means.named pl hheap with ⟨hmain, -⟩ | hnamed
    · rw [(hw.cell i hi).1] at hmain
      cases hmain
    · rw [hi] at hnamed
      exact Or.inl hnamed

structure Allows (σ : Site) (b : Room) : Prop where
  slots : b.slots = σ.slots
  cells : b.cells = σ.cells

theorem Allows.writes {heap : Bool} (hb : σ.Allows b) (h : f.MayDeclare σ.rules b pl heap) : σ.Writes pl := by
  refine ⟨fun i hi => ?_, fun i hi => ?_⟩
  · subst hi
    exact hb.slots ▸ h
  · subst hi
    exact ⟨h.1, (List.getElem?_eq_some_iff.mp (hb.cells ▸ h.2.2)).1⟩

theorem Anchored.declare {heap : Bool} (hcell : ∀ i, pl = .global i → σ.cells[i]? = some heap)
    (hslot : ∀ i, pl = .slot i → i < σ.slots) (h : σ.Anchored f r) (hn : heap = true → σ.place pl ∈ r.named) :
    σ.Anchored (f.declare pl heap) r := by
  refine ⟨fun i heap' hi => ?_, fun i heap' hi => ?_, fun pl' hi => ?_⟩
  · by_cases hpl : Place.global i = pl
    · simp only [Facts.declare, hpl, if_true] at hi
      rw [← hi]
      exact hcell i hpl.symm
    · simp only [Facts.declare, hpl, if_false] at hi
      exact h.table i heap' hi
  · by_cases hpl : Place.slot i = pl
    · exact hslot i hpl.symm
    · simp only [Facts.declare, hpl, if_false] at hi
      exact h.room i heap' hi
  · by_cases hpl : pl' = pl
    · simp only [Facts.declare, hpl, if_true, Option.some.injEq] at hi
      exact hpl ▸ Or.inr (hn hi)
    · simp only [Facts.declare, hpl, if_false] at hi
      exact h.named pl' hi

theorem Holds.declarePlain (hc : σ.rules.Careful) (hb : σ.Allows b) (h : σ.Holds f m get) (hf : f.fresh = none)
    (hx : f.Knows σ.rules x .plain) (hm : f.MayDeclare σ.rules b pl false) :
    σ.Holds ((f.stored σ.rules).declare pl false) (m.setSlot (σ.place pl) (get x)) get := by
  have hrefs : (get x).refs = [] := h.fits hx
  rw [stored_eq hc]
  refine h.setSlot (hb.writes hm) hf (direct_of_refs hrefs) (Held.pointer (.of_refs hrefs))
    (fun _ _ _ => hrefs) (fun y w => settle_regs) ?_ (fun j hj => ?_) (.none hf) fun i hi hcell => ?_
  · have hold : σ.Anchored f.settle m.roots := ⟨h.means.table, h.means.room, h.means.named⟩
    refine hold.declare (fun i hi => ?_) (hb.writes hm).slot nofun
    subst hi
    exact hb.cells ▸ hm.2.2
  · by_cases hpl : Place.slot j = pl
    · exact Or.inl ⟨hpl.symm, hrefs⟩
    · simp only [Facts.declare, hpl, if_false] at hj
      exact Or.inr ⟨Ne.symm hpl, hj⟩
  · subst hi
    have hplain : σ.cells[i]? = some false := hb.cells ▸ hm.2.2
    rw [hcell] at hplain
    cases hplain

theorem Holds.declareHeap (hc : σ.rules.Careful) (hb : σ.Allows b) (h : σ.Holds f m get) (hf : f.fresh = none)
    (hx : f.Knows σ.rules x .heap) (hm : f.MayDeclare σ.rules b pl true) :
    σ.Holds ((f.stored σ.rules).await pl) (m.setSlot (σ.place pl) (get x)) get := by
  obtain ⟨hdirect, hheld⟩ := h.fits hx
  have hw := hb.writes hm
  rw [stored_eq hc]
  refine h.setSlot hw hf hdirect hheld (fun i hi hcell => ?_) (fun y w => settle_regs) ?_ (fun j hj => ?_)
    ⟨fun i hi => ?_, fun i hi => ?_, fun pl' hpl' => ?_⟩ fun i hi _ => Or.inr (congrArg some hi)
  · subst hi
    have hheap : σ.cells[i]? = some true := hb.cells ▸ hm.2.2
    rw [hcell] at hheap
    cases hheap
  · refine ⟨fun i heap hi => ?_, fun i heap hi => ?_, fun pl' hi => ?_⟩
    all_goals
      simp only [Facts.await] at hi
      split at hi
      · cases hi
    · exact h.means.table i heap hi
    · exact h.means.room i heap hi
    · exact h.means.named pl' hi
  · simp only [Facts.await] at hj
    split at hj
    · cases hj
    next hpl => exact Or.inr ⟨Ne.symm hpl, hj⟩
  · cases hi
    exact hw.slot i rfl
  · cases hi
    exact ⟨hm.1, hm.2.1, hb.cells ▸ hm.2.2⟩
  · cases hpl'
    by_cases hnamed : σ.place pl ∈ m.roots.named
    · exact .named hnamed
    · rw [slot_setSlot_self _ (hw.lt h.stands)]
      exact hheld.kept (kept_setSlot hnamed)

theorem Holds.register (h : σ.Holds f m get) (hf : f.fresh = some pl) :
    σ.Holds { f.declare pl true with fresh := none } (m.withRoots (m.roots.addNamed (σ.place pl))) get := by
  have hsub : m.roots.Sub (m.roots.addNamed (σ.place pl)) := ⟨fun i hi => Array.mem_push_of_mem _ hi, fun p hp => hp⟩
  have hnew : σ.place pl ∈ (m.roots.addNamed (σ.place pl)).named := Array.mem_push_self
  have hw : σ.Writes pl := by
    refine ⟨fun i hi => h.awaits.room i (hi ▸ hf), fun i hi => ?_⟩
    obtain ⟨hmain, -, hcell⟩ := h.awaits.cell i (hi ▸ hf)
    exact ⟨hmain, (List.getElem?_eq_some_iff.mp hcell).1⟩
  have hmem : ∀ i ∈ (m.roots.addNamed (σ.place pl)).named, i ∈ m.roots.named ∨ i = σ.place pl := fun i hi =>
    Array.mem_push.mp hi
  refine
    { orderly := ⟨h.orderly.sound.withRoots (fun i hi => ?_) h.orderly.sound.closed.temps, h.orderly.direct,
        fun i hi => ?_, h.orderly.plain⟩
      stands := ⟨h.stands.toLies, h.stands.size⟩
      sub := h.sub.trans hsub
      params := fun x hx => ⟨(h.params x hx).1, (h.params x hx).2.kept (kept_withRoots _ _ _)⟩
      means :=
        { toAnchored := ?_
          plain := fun i hi => ?_
          regs := fun x w hx => (h.means.regs x w hx).mono (kept_withRoots _ _ _) hsub }
      awaits := .none rfl
      guarded := fun i hi => ?_ }
  · rcases hmem i hi with hi | rfl
    · exact h.orderly.sound.closed.named i hi
    · exact ((h.awaits.held pl hf).safe (.refl _)).live h.orderly.sound
  · rcases hmem i hi with hi | rfl
    · exact h.orderly.bound i hi
    · have hlt : σ.place pl < m.slots.size := hw.lt h.stands
      exact hlt
  · have hold : σ.Anchored f (m.roots.addNamed (σ.place pl)) :=
      ⟨h.means.table, h.means.room, fun pl' hpl' => (h.means.named pl' hpl').imp id (hsub.named _)⟩
    have hdeclared : σ.Anchored (f.declare pl true) (m.roots.addNamed (σ.place pl)) :=
      hold.declare (fun i hi => (h.awaits.cell i (hi ▸ hf)).2.2) hw.slot fun _ => hnew
    exact ⟨hdeclared.table, hdeclared.room, hdeclared.named⟩
  · by_cases hpl : Place.slot i = pl
    · simp [Facts.declare, hpl] at hi
    · simp only [Facts.declare, hpl, if_false] at hi
      exact h.means.plain i hi
  · rcases h.guarded i hi with hrefs | hnamed | hfresh
    · exact Or.inl hrefs
    · exact Or.inr (Or.inl (hsub.named i hnamed))
    · rw [hf] at hfresh
      cases hfresh
      exact Or.inr (Or.inl hnew)

theorem Holds.fits_load (h : σ.Holds f m get) (hf : f.fresh = none) (hp : f.places pl = some ty.isHeap) :
    σ.Fits m m.roots (wordOf ty) ((m.slot (σ.place pl)).readAs ty) := by
  cases hty : ty.isHeap with
  | false =>
    have hrefs : (m.slot (σ.place pl)).refs = [] := by
      cases pl with
      | slot i => exact h.means.plain i (hty ▸ hp)
      | global i => exact h.orderly.plain i (hty ▸ h.means.table i _ hp)
    have hread : ((m.slot (σ.place pl)).readAs ty).refs = [] := by
      rcases readAs_cases (m.slot (σ.place pl)) ty with hzero | hsame
      · rw [hzero]
        cases ty <;> first | rfl | cases hty
      · rw [hsame]
        exact hrefs
    simp only [wordOf, hty]
    exact hread
  | true =>
    have hheld : m.Held m.roots (m.slot (σ.place pl)).pointer := by
      rcases h.means.named pl (hty ▸ hp) with ⟨-, i, rfl⟩ | hnamed
      · have hguarded := h.guarded i (hty ▸ h.means.table i _ hp)
        rw [hf] at hguarded
        rcases hguarded with hrefs | hnamed | hfresh
        · exact Held.pointer (.of_refs hrefs)
        · exact .named hnamed
        · cases hfresh
      · exact .named hnamed
    simp only [wordOf, hty, if_true]
    rcases readAs_cases (m.slot (σ.place pl)) ty with hzero | hsame
    · rw [hzero]
      exact ⟨direct_zeroOf ty, pointer_zeroOf ty ▸ .null⟩
    · rw [hsame]
      exact ⟨h.orderly.direct _, hheld⟩

theorem fits_element {s : Session} (h : s.memory.HeldValue r v) :
    σ.Fits s.memory r .element (.element (s.elementOf v)) := by
  intro p hp
  cases v with
  | string q =>
    obtain ⟨-, rfl⟩ := Heap.mem_pointers_string.mp hp
    exact h q List.mem_cons_self
  | list q =>
    obtain ⟨-, rfl⟩ := Heap.mem_pointers_list.mp hp
    exact h q List.mem_cons_self
  | any q => exact .inside (h q List.mem_cons_self) hp
  | element b => exact h p hp
  | _ => cases hp

end Site

end Flow

end Blockwork
