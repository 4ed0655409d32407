import Blockwork.Proofs.Tracing.Frames

/-! # Steps of a traced program
What a step does to a variable is added to the history, and everything that was said of the running program
is found again: the step lemma has one case for each way an instruction can touch variables, and one for
each way to go on. -/

namespace Blockwork.Tracing

open List (forall_mem_nil mem_singleton mem_of_getElem?)

open Typing Instr Event Machine Memory

/-! ### Steps that touch no variable -/

def Idle (new : List Event) : Prop :=
  ∀ e ∈ new, ∀ x, e.writes x = false ∧ e.closes x = false

theorem Idle.nil : Idle [] :=
  forall_mem_nil _

theorem Idle.reads (he : e.access = .reads x d) : Idle [e] := by
  intro e' he' y
  obtain rfl := mem_singleton.mp he'
  simp [writes, closes, he]

section

variable {new : List Event}

theorem Locals.idle {room : Nat} (h : Locals L mem birth base room xs) (hnew : Idle new)
    (hmem : mem'.slots = mem.slots) : Locals (new ++ L) mem' birth base room xs := by
  have hmoved : Locals L mem' birth base room xs :=
    h.later (forall_mem_nil _) fun i _ => slot_congr hmem _
  induction new with
  | nil => exact hmoved
  | cons e new ih =>
    have hrest := ih fun e' he' => hnew e' (List.mem_cons_of_mem _ he')
    exact hrest.skip (fun x _ => hnew e List.mem_cons_self x) fun _ _ => rfl

theorem CellHolds.later (h : CellHolds L x v) (hnew : ∀ e ∈ new, e.writes x = false) : CellHolds (new ++ L) x v := by
  induction new with
  | nil => exact h
  | cons e new ih =>
    exact (ih fun e' he' => hnew e' (List.mem_cons_of_mem _ he')).skip (hnew e List.mem_cons_self)

end

variable {Y : Layout p code}
  {W : World} {F' : Facts} {new : List Event}

theorem CellsHold.later (h : CellsHold Y L mem) (hnew : ∀ e ∈ new, ∀ x, e.writes x = false)
    (hmem : ∀ i < Y.cells.length, mem'.slot i = mem.slot i) : CellsHold Y (new ++ L) mem' := by
  intro i x hx
  rw [hmem i (List.getElem?_eq_some_iff.mp hx).1]
  exact (h i x hx).later fun e he => hnew e he x

theorem Frame.declared_later (h : Frame Y L mem D inv W F a) (hle : F'.cells ≤ F.cells) :
    W.main = true → ∀ i < F'.cells, ∀ x, Y.cells[i]? = some x → ∃ e ∈ new ++ L, e.declares x = true := by
  intro hm i hi x hx
  obtain ⟨e, he, hdeclares⟩ := h.declared hm i (Nat.lt_of_lt_of_le hi hle) x hx
  exact ⟨e, List.mem_append_right _ he, hdeclares⟩

theorem Frame.idle (h : Frame Y L mem D inv W F a) (hnew : Idle new) (hmem : mem'.slots = mem.slots)
    (hbase : a'.base = a.base) (hstands : StandsAt W k F' a'.code a'.konts) (hregs : Registers W D' a')
    (hlocals : F'.locals <+: F.locals) (hcells : F'.cells ≤ F.cells) :
    Frame Y (new ++ L) mem' D' { inv with pc := k } W F' a' where
  told := h.told
  stands := hstands
  regs := hregs
  low := hbase ▸ h.low
  locals := by
    rw [hbase]
    exact (h.locals.fewer hlocals).idle hnew hmem
  declared := h.declared_later hcells

namespace Traced

theorem stays (h : Traced Y n m inv invs W F L)
    (hframe : Frame Y (new ++ L) s'.memory F'.written { inv with pc := k } W F' a')
    (hbase : a'.base = m.active.base) (hdst : a'.dst = m.active.dst)
    (hsize : s'.memory.slots.size = m.session.memory.slots.size) (hnew : ∀ e ∈ new, e.invocation = inv)
    (hmem : ∀ i < m.active.base, Y.cells.length ≤ i → s'.memory.slot i = m.session.memory.slot i)
    (hcells : CellsHold Y (new ++ L) s'.memory) :
    Traced Y (n + 1) ⟨s', a', m.waiting⟩ { inv with pc := k } invs W F' (new ++ L) where
  frame := hframe
  top := by
    rw [hbase, hsize]
    exact h.top
  birth := Nat.le_succ_of_le h.birth
  bottom := h.bottom
  stack := by
    rw [hbase, hdst]
    exact h.stack.later (fun e he => Nat.le_of_eq (congrArg Invocation.birth (hnew e he)).symm) hmem
  cells := hcells

theorem idle (h : Traced Y n m inv invs W F L) (hnew : Idle new) (hinv : ∀ e ∈ new, e.invocation = inv)
    (hslots : s'.memory.slots = m.session.memory.slots) (hbase : a'.base = m.active.base)
    (hdst : a'.dst = m.active.dst) (hstands : StandsAt W k F' a'.code a'.konts)
    (hregs : Registers W F'.written a') (hlocals : F'.locals <+: F.locals) (hcells : F'.cells ≤ F.cells) :
    Traced Y (n + 1) ⟨s', a', m.waiting⟩ { inv with pc := k } invs W F' (new ++ L) := by
  refine h.stays (h.frame.idle hnew hslots hbase hstands hregs hlocals hcells) hbase hdst ?_ hinv ?_ ?_
  · rw [hslots]
  · exact fun i _ _ => slot_congr hslots i
  · exact h.cells.later (fun e he x => (hnew e he x).1) fun i _ => slot_congr hslots i


theorem writes (h : Traced Y n ⟨s, ⟨i :: is, ks, regs, base, dst⟩, ws⟩ inv invs W F L) (hnew : Idle new)
    (hinv : ∀ e ∈ new, e.invocation = inv) (hslots : s'.memory.slots = s.memory.slots)
    (hdst : i.dst? = some d) (hstands : StandsAt W (inv.pc + 1) (F.write i) is ks)
    (hd : W.kinds[d]? = some v.content) :
    Traced Y (n + 1) ⟨s', Activation.set ⟨is, ks, regs, base, dst⟩ d v, ws⟩ { inv with pc := inv.pc + 1 } invs W
      (F.write i) (new ++ L) := by
  have hregs : Registers W F.written ⟨is, ks, regs, base, dst⟩ := h.frame.regs.congr rfl
  have hwritten : (F.write i).written = d :: F.written := by
    simp only [Facts.write, hdst, Option.toList_some, List.singleton_append]
  refine h.idle hnew hinv hslots rfl rfl hstands ?_ (List.prefix_refl _) (Nat.le_refl _)
  rw [hwritten]
  exact (hregs.set hd rfl).1

theorem cells_written (h : Traced Y n m inv invs W F L) (he : e.writes x = true)
    (hother : ∀ y, x ≠ y → e.writes y = false) (hx : Y.cells[i]? = some x)
    (htyped : e.value.content = .value x.ty) (hi : i < m.session.memory.slots.size) :
    CellsHold Y ([e] ++ L) (m.session.memory.setSlot i e.value) := by
  intro j y hy
  by_cases hij : j = i
  · subst hij
    cases hx.symm.trans hy
    rw [slot_setSlot_self _ hi]
    exact .written (Y.isGlobal x (mem_of_getElem? hx)) he htyped
  · have hxy : x ≠ y := by
      rintro rfl
      exact hij ((List.getElem?_inj (List.getElem?_eq_some_iff.mp hy).1 Y.distinct).mp (hy.trans hx.symm))
    rw [slot_setSlot hij]
    exact (h.cells j y hy).skip (hother y hxy)

theorem cells_local (h : Traced Y n m inv invs W F L) (hother : ∀ y, x ≠ y → e.writes y = false)
    (hx : x.isGlobal = false) (hi : Y.cells.length ≤ i) :
    CellsHold Y ([e] ++ L) (m.session.memory.setSlot i e.value) := by
  intro j y hy
  have hlt := (List.getElem?_eq_some_iff.mp hy).1
  have hxy : x ≠ y := by
    rintro rfl
    rw [Y.isGlobal x (mem_of_getElem? hy)] at hx
    cases hx
  rw [slot_setSlot (by omega)]
  exact (h.cells j y hy).skip (hother y hxy)

theorem locals_cell (h : Traced Y n m inv invs W F L) (hx : x.isGlobal = true)
    (he : e.access = .declares x r ∨ e.access = .assigns x r) (hi : i < Y.cells.length) :
    Locals ([e] ++ L) (m.session.memory.setSlot i e.value) inv.birth m.active.base W.slots F.locals := by
  have hlow := h.frame.low
  refine h.frame.locals.skip (fun y hy => writes_other he ?_) fun j _ => slot_setSlot (by omega)
  rintro rfl
  rw [h.frame.locals.isLocal x hy] at hx
  cases hx

theorem size_setSlot (mem : Memory) (i : Nat) (v : Value) : (mem.setSlot i v).slots.size = mem.slots.size := by
  simp [setSlot]

theorem stored_local (h : Traced Y n m inv invs W F L) (e : Event) (a' : Activation) (F' : Facts)
    (he : e.access = .declares x r ∨ e.access = .assigns x r) (hinv : e.invocation = inv)
    (hx : x.isGlobal = false) (hcode : a'.base = m.active.base ∧ a'.dst = m.active.dst)
    (hregs : Registers W F'.written a') (hstands : StandsAt W k F' a'.code a'.konts) (hcells : F'.cells = F.cells)
    (hlocals : Locals ([e] ++ L) (m.session.memory.setSlot (m.active.base + i) e.value) inv.birth m.active.base
      W.slots F'.locals) : Traced Y (n + 1)
      ⟨{ m.session with memory := m.session.memory.setSlot (m.active.base + i) e.value }, a', m.waiting⟩
      { inv with pc := k } invs W F' ([e] ++ L) := by
  have hlow := h.frame.low
  obtain ⟨hbase, hdst⟩ := hcode
  refine h.stays ⟨h.frame.told, hstands, hregs, hbase ▸ hlow, ?_, ?_⟩ hbase hdst (size_setSlot _ _ _) ?_ ?_ ?_
  · rw [hbase]
    exact hlocals
  · exact h.frame.declared_later (Nat.le_of_eq hcells)
  · intro e' he'
    obtain rfl := mem_singleton.mp he'
    exact hinv
  · exact fun j hj _ => slot_setSlot (by omega)
  · exact h.cells_local (fun y hxy => (writes_other he hxy).1) hx (by omega)

theorem stored_cell (h : Traced Y n m inv invs W F L) (e : Event) (a' : Activation) (F' : Facts)
    (hx : Y.cells[i]? = some x) (he : e.access = .declares x r ∨ e.access = .assigns x r) (hinv : e.invocation = inv)
    (htyped : e.value.content = .value x.ty) (hcode : a'.base = m.active.base ∧ a'.dst = m.active.dst)
    (hregs : Registers W F'.written a') (hstands : StandsAt W k F' a'.code a'.konts) (hlocals : F'.locals = F.locals)
    (hdeclared : W.main = true → ∀ i < F'.cells, ∀ x, Y.cells[i]? = some x → ∃ e' ∈ [e] ++ L, e'.declares x = true) :
    Traced Y (n + 1) ⟨{ m.session with memory := m.session.memory.setSlot i e.value }, a', m.waiting⟩
      { inv with pc := k } invs W F' ([e] ++ L) := by
  have hlow := h.frame.low
  have htop := h.top
  have hlt := (List.getElem?_eq_some_iff.mp hx).1
  have hwrites : e.writes x = true := by
    rcases he with he | he <;> simp [Event.writes, he]
  obtain ⟨hbase, hdst⟩ := hcode
  refine h.stays ⟨h.frame.told, hstands, hregs, hbase ▸ hlow, ?_, hdeclared⟩ hbase hdst (size_setSlot _ _ _) ?_ ?_ ?_
  · rw [hbase, hlocals]
    exact h.locals_cell (Y.isGlobal x (mem_of_getElem? hx)) he hlt
  · intro e' he'
    obtain rfl := mem_singleton.mp he'
    exact hinv
  · exact fun j _ hj => slot_setSlot (by omega)
  · exact h.cells_written hwrites (fun y hxy => (writes_other he hxy).1) hx htyped (by omega)

theorem returns (h : Traced Y n ⟨s, a, caller :: ws⟩ inv invs W F L) (s' : Session)
    (hinv : ∀ e ∈ new, e.invocation = inv) (hnew : ∀ e ∈ new, ∀ x, e.writes x = false)
    (hslots : s'.memory.slots = s.memory.slots.shrink a.base) (hv : v.content = .value .any) :
    ∃ inv' invs' W' F', invs = inv' :: invs' ∧
      Traced Y (n + 1) ⟨s', caller.set a.dst v, ws⟩ inv' invs' W' F' (new ++ L) := by
  have htop := h.top
  have hbirth := h.birth
  have hlow := h.frame.low
  have hmem : ∀ i < a.base, s'.memory.slot i = s.memory.slot i := by
    intro i hi
    rw [slot, hslots]
    exact Flow.slot_cut hi
  have hsize : s'.memory.slots.size = a.base := by
    rw [hslots, Array.size_shrink]
    simp only at htop
    omega
  have hstack := h.stack
  simp only at hstack htop hbirth hlow
  cases hstack with
  | @cons _ _ _ _ _ inv' invs' W' F' D hframe hwritten hd hbelow hborn hbottom hrest =>
    refine ⟨inv', invs', W', F', rfl, ?_⟩
    have hlater : Frame Y (new ++ L) s'.memory D inv' W' F' caller :=
      hframe.later (fun e he hsame => by rw [hinv e he] at hsame; omega) fun i hi => hmem _ (by omega)
    have hset := hlater.regs.set hd hv
    refine ⟨⟨hlater.told, hlater.stands, hset.1.mono hwritten, hlater.low, hlater.locals, hlater.declared⟩, ?_, ?_,
      hbottom, ?_, ?_⟩
    · show caller.base + W'.slots ≤ s'.memory.slots.size
      omega
    · omega
    · refine hrest.later (fun e he => ?_) fun i hi _ => hmem i (by omega)
      rw [hinv e he]
      omega
    · exact h.cells.later hnew fun i hi => hmem i (by omega)

end Traced

theorem Described.starts (h : Described arity C B ms n f W) : StandsAt W 0 (startFacts n) f.code [] := by
  obtain ⟨F', hcode⟩ := h.code
  refine ⟨F', hcode, .done fun e he hend => ?_⟩
  rw [h.values] at he
  have hlt := (h.typed e he).1
  omega

namespace Traced

theorem calls (h : Traced Y n ⟨s, ⟨.call d fn args :: is, ks, regs, base, dst⟩, ws⟩ inv invs W F L)
    (hfn : Y.arity fn = some args.length) (hargs : ∀ r ∈ args, Has W.kinds F.written r (.value .any))
    (hd : W.kinds[d]? = some (.value .any)) (hstands : StandsAt W (inv.pc + 1) (F.write (.call d fn args)) is ks) :
    ∃ W' F', Traced Y (n + 1) ⟨addSlots s (code.functions.getD fn default).slots,
        start (code.functions.getD fn default) (args.map (Activation.get ⟨is, ks, regs, base, dst⟩))
          s.memory.slots.size d,
        ⟨is, ks, regs, base, dst⟩ :: ws⟩
      ⟨some fn, n + 1, 0⟩ ({ inv with pc := inv.pc + 1 } :: invs) W' F' L := by
  have htop := h.top
  have hlow := h.frame.low
  simp only at htop hlow
  obtain ⟨f, W', hf, htold⟩ := Y.functions fn args.length hfn
  have hcallee : code.functions.getD fn default = f := by
    rw [Array.getD_eq_getD_getElem?, hf, Option.getD_some]
  have hregs : Registers W F.written ⟨is, ks, regs, base, dst⟩ := h.frame.regs.congr rfl
  have hslot : ∀ i, (addSlots s f.slots).memory.slot i = s.memory.slot i := Flow.slot_addSlots s f.slots
  have hlength : (args.map (Activation.get ⟨is, ks, regs, base, dst⟩)).length = args.length := List.length_map _
  have hvalues : ∀ v ∈ args.map (Activation.get ⟨is, ks, regs, base, dst⟩), v.content = .value .any := by
    intro v hv
    obtain ⟨r, hr, rfl⟩ := List.mem_map.mp hv
    exact hregs.content (hargs r hr)
  have hstart : Registers W' (List.range args.length)
      (start f (args.map (Activation.get ⟨is, ks, regs, base, dst⟩)) s.memory.slots.size d) := by
    rw [← hlength]
    exact .start htold.kinds (fun i hi => htold.params i (by omega)) hvalues
  rw [hcallee]
  refine ⟨W', startFacts args.length, ⟨⟨⟨args.length, f, htold⟩, htold.starts, hstart, ?_, .nil _ _ _ _ _, ?_⟩, ?_,
    Nat.le_refl _, ⟨nofun, nofun⟩, ?_, ?_⟩⟩
  · show Y.cells.length ≤ s.memory.slots.size
    omega
  · exact fun _ i hi => absurd hi (Nat.not_lt_zero _)
  · show s.memory.slots.size + W'.slots ≤ (s.memory.slots ++ Array.replicate f.slots Value.zero).size
    simp only [htold.slots, Array.size_append, Array.size_replicate, Nat.le_refl]
  · refine .cons (W := W) (F := F.write (.call d fn args)) (D := F.written) ?_ (List.Subset.refl _) hd htop
      (Nat.lt_succ_of_le h.birth) h.bottom ?_
    · exact ⟨h.frame.told, hstands, hregs, hlow,
        h.frame.locals.later (forall_mem_nil _) fun i _ => hslot _, h.frame.declared⟩
    · exact h.stack.later (forall_mem_nil _) fun i _ _ => hslot i
  · exact h.cells.later (forall_mem_nil _) fun i _ => hslot i

end Traced

/-! ### Instructions without bodies -/

theorem Value.content_readAs {v : Value} (h : v = .zero ∨ v.content = .value ty) :
    (v.readAs ty).content = .value ty := by
  rcases h with rfl | h
  · cases ty <;> rfl
  · cases v with
    | zero => cases h
    | _ => exact h

theorem CellHolds.typed (h : CellHolds L x v) : v = .zero ∨ v.content = .value x.ty := by
  unfold CellHolds at h
  split at h
  · exact .inr h.2
  · exact .inl h

theorem Entry.slots_run (e : Entry) (args : List Value) (s : Session) :
    (e.run args s).2.memory.slots = s.memory.slots := by
  by_cases ho : e.ordinary = true
  · rw [e.run_eq_carry ho]
    exact (Plan.follows _ s).slots
  · cases e with
    | rootBegin | rootEnd | rootSave | rootRestore | flush | addTempRoot => exact slots_onRoots s _
    | addRoot =>
      simp only [Entry.run]
      split
      · exact slots_onRoots s _
      · rfl
    | _ => exact absurd rfl ho

theorem StandsAt.leaf (h : StandsAt W k F (i :: is) ks) (hi : i.isLeaf = true) :
    ∃ F₁, Leads W k F i F₁ ∧ StandsAt W (k + 1) F₁ is ks := by
  obtain ⟨F', hcode, hks⟩ := h
  cases hcode with
  | leaf _ hleads hrest =>
    rw [widthIn, width_of_isLeaf hi, ← Nat.add_assoc] at hks
    exact ⟨_, hleads, F', hrest, hks⟩
  | rooted | ifThen | countLoop | whileLoop | foreverLoop => cases hi

def World.eventAt (W : World) (inv : Invocation) (m : Machine) (next : Progress) : Option Event :=
  if m.atLeaf then (W.accesses.lookup inv.pc).map fun a => ⟨inv, a, a.value (.running m) next⟩ else none

section


theorem eventAt_none (h : W.accesses.lookup inv.pc = none) : W.eventAt inv m next = none := by
  rw [World.eventAt, h]
  split <;> rfl

theorem eventAt_control (h : m.atLeaf = false) : W.eventAt inv m next = none := by
  rw [World.eventAt, h]
  rfl

theorem eventAt_some (hleaf : m.atLeaf = true) (h : W.accesses.lookup inv.pc = some acc) :
    W.eventAt inv m next = some ⟨inv, acc, acc.value (.running m) next⟩ := by
  rw [World.eventAt, h, hleaf]
  rfl

end

theorem follow_poll (hexit : s.shouldExit = true) :
    follow n ⟨s, ⟨.poll :: is, ks, regs, base, dst⟩, ws⟩ (inv :: invs) = invs := by
  rw [follow, if_pos (by exact hexit)]

theorem follow_poll_stays (hexit : ¬s.shouldExit = true) :
    follow n ⟨s, ⟨.poll :: is, ks, regs, base, dst⟩, ws⟩ (inv :: invs) =
      { inv with pc := inv.pc + 1 } :: invs := by
  rw [follow, if_neg (by exact hexit)]
  rfl

def Follows (Y : Layout p code) (n : Nat) (m m' : Machine) (inv : Invocation) (invs : List Invocation) (W : World)
    (L : List Event) : Prop :=
  ∃ inv' invs' W' F', Machine.follow n m (inv :: invs) = inv' :: invs' ∧
    Traced Y (n + 1) m' inv' invs' W' F' ((W.eventAt inv m (.running m')).toList ++ L)

namespace Traced


theorem follows_leave (h : Traced Y n m inv invs W F L) (hfollow : follow n m (inv :: invs) = invs)
    (hnew : ∀ e ∈ (W.eventAt inv m (.running m')).toList, e.invocation = inv ∧ ∀ x, e.writes x = false)
    (hslots : s'.memory.slots = m.session.memory.slots) (hv : m.waiting ≠ [] → v.content = .value .any)
    (ha' : a'.base = m.active.base ∧ a'.dst = m.active.dst)
    (hstep : leave s' m.waiting a' v = .running m') : Follows Y n m m' inv invs W L := by
  obtain ⟨s, a, ws⟩ := m
  cases ws with
  | nil => cases hstep
  | cons caller ws =>
    simp only [leave, Progress.running.injEq] at hstep
    subst hstep
    have hshrunk : s'.memory.slots.shrink a'.base = s.memory.slots.shrink a.base := by
      rw [hslots, ha'.1]
    obtain ⟨inv', invs', W', F', rfl, htraced⟩ :=
      h.returns { s' with memory := { s'.memory with slots := s'.memory.slots.shrink a'.base } }
        (fun e he => (hnew e he).1) (fun e he => (hnew e he).2) hshrunk (hv (List.cons_ne_nil _ _))
    rw [← ha'.2] at htraced
    exact ⟨inv', invs', W', F', hfollow, htraced⟩

theorem follows_writes (h : Traced Y n ⟨s, ⟨i :: is, ks, regs, base, dst⟩, ws⟩ inv invs W F L)
    (hfollow : follow n ⟨s, ⟨i :: is, ks, regs, base, dst⟩, ws⟩ (inv :: invs) =
      { inv with pc := inv.pc + 1 } :: invs) (hnone : W.accesses.lookup inv.pc = none) (hdst : i.dst? = some d)
    (hslots : s'.memory.slots = s.memory.slots) (hd : W.kinds[d]? = some v.content)
    (hstands : StandsAt W (inv.pc + 1) (F.write i) is ks) :
    Follows Y n ⟨s, ⟨i :: is, ks, regs, base, dst⟩, ws⟩
      ⟨s', Activation.set ⟨is, ks, regs, base, dst⟩ d v, ws⟩ inv invs W L := by
  refine ⟨{ inv with pc := inv.pc + 1 }, invs, W, F.write i, hfollow, ?_⟩
  rw [eventAt_none hnone]
  exact h.writes .nil (forall_mem_nil _) hslots hdst hstands hd

theorem follows_plain (h : Traced Y n ⟨s, ⟨i :: is, ks, regs, base, dst⟩, ws⟩ inv invs W F L)
    (hleaf : Leaf W.ctx W.kinds F.written i) (hnone : W.accesses.lookup inv.pc = none)
    (hstands : StandsAt W (inv.pc + 1) (F.write i) is ks)
    (hstep : execute code s ws ⟨is, ks, regs, base, dst⟩ i = .running m') :
    Follows Y n ⟨s, ⟨i :: is, ks, regs, base, dst⟩, ws⟩ m' inv invs W L := by
  have hquiet : ∀ e ∈ (W.eventAt inv ⟨s, ⟨i :: is, ks, regs, base, dst⟩, ws⟩ (.running m')).toList,
      e.invocation = inv ∧ ∀ x, e.writes x = false := by
    rw [eventAt_none hnone]
    exact forall_mem_nil _
  cases hleaf with
  | constant hd =>
    cases hstep
    exact h.follows_writes rfl hnone rfl rfl hd hstands
  | unary _ _ hd =>
    cases hstep
    exact h.follows_writes rfl hnone rfl rfl (by rw [hd, UnaryOp.content_run]) hstands
  | binary _ _ _ hd =>
    cases hstep
    exact h.follows_writes rfl hnone rfl rfl (by rw [hd, BinaryOp.content_run]) hstands
  | element _ hd | address hd =>
    cases hstep
    exact h.follows_writes rfl hnone rfl rfl hd hstands
  | @entry d e args _ _ _ _ hd =>
    have hyields := (Entry.content_run e (args.map (Activation.get ⟨is, ks, regs, base, dst⟩)) s).symm
    cases hstep
    exact h.follows_writes rfl hnone rfl (Entry.slots_run _ _ _) (hd.trans (congrArg some hyields)) hstands
  | call hf hargs hd =>
    cases hstep
    obtain ⟨n', f', hdescribed⟩ := h.frame.told
    rw [hdescribed.ctx] at hf
    obtain ⟨W', F', htraced⟩ := h.calls hf hargs hd hstands
    refine ⟨_, _, W', F', rfl, ?_⟩
    rw [eventAt_none hnone]
    exact htraced
  | poll =>
    simp only [execute] at hstep
    by_cases hexit : s.shouldExit = true
    · rw [if_pos hexit] at hstep
      exact h.follows_leave (follow_poll hexit) hquiet (slots_onRoots s _) (fun _ => rfl) ⟨rfl, rfl⟩ hstep
    · rw [if_neg hexit] at hstep
      cases hstep
      refine ⟨{ inv with pc := inv.pc + 1 }, invs, W, F.write .poll, follow_poll_stays hexit, ?_⟩
      rw [eventAt_none hnone]
      exact h.idle .nil (forall_mem_nil _) rfl rfl rfl hstands (h.frame.regs.congr rfl) (List.prefix_refl _)
        (Nat.le_refl _)
  | ret hmain =>
    have hws : ws = [] := h.bottom.mp (h.frame.told.main.mp hmain)
    subst hws
    cases hstep
  | retValue hr =>
    exact h.follows_leave rfl hquiet rfl (fun _ => h.frame.regs.content hr) ⟨rfl, rfl⟩ hstep

theorem located_value (h : Traced Y n m inv invs W F L) (hx : Located W F pl x) :
    (Remembers L inv.birth x (m.session.memory.slot (m.active.place pl)) ∧ x.isGlobal = false) ∨
      (CellHolds L x (m.session.memory.slot (m.active.place pl)) ∧ x.isGlobal = true ∧
        (inv.function = none → ∃ e ∈ L, e.declares x = true)) := by
  cases hx with
  | slot hi => exact .inl ⟨h.frame.locals.held _ x hi, h.frame.locals.isLocal x (mem_of_getElem? hi)⟩
  | @cell i _ hi hmain =>
    obtain ⟨n', f', hdescribed⟩ := h.frame.told
    rw [hdescribed.cells] at hi
    refine .inr ⟨h.cells i x hi, Y.isGlobal x (mem_of_getElem? hi), fun hfn => ?_⟩
    have hm := h.frame.told.main.mpr hfn
    exact h.frame.declared hm i (hmain hm) x hi

theorem located_typed (h : Traced Y n m inv invs W F L) (hx : Located W F pl x) :
    ((m.session.memory.slot (m.active.place pl)).readAs x.ty).content = .value x.ty := by
  rcases h.located_value hx with ⟨hlocal, -⟩ | ⟨hcell, -⟩
  · exact Value.content_readAs (.inr hlocal.typed)
  · exact Value.content_readAs hcell.typed

theorem follows_reads (h : Traced Y n ⟨s, ⟨.load d x.ty pl :: is, ks, regs, base, dst⟩, ws⟩ inv invs W F L)
    (hx : W.accesses.lookup inv.pc = some (.reads x d)) (hpl : Located W F pl x)
    (hd : W.kinds[d]? = some (.value x.ty)) (hstands : StandsAt W (inv.pc + 1) (F.write (.load d x.ty pl)) is ks)
    (hstep : execute code s ws ⟨is, ks, regs, base, dst⟩ (.load d x.ty pl) = .running m') :
    Follows Y n ⟨s, ⟨.load d x.ty pl :: is, ks, regs, base, dst⟩, ws⟩ m' inv invs W L := by
  cases hstep
  refine ⟨{ inv with pc := inv.pc + 1 }, invs, W, F.write (.load d x.ty pl), rfl, ?_⟩
  rw [eventAt_some rfl hx]
  refine h.writes (Idle.reads rfl) (fun e he => ?_) rfl rfl hstands (hd.trans (congrArg some ?_))
  · rw [mem_singleton.mp he]
  · exact (h.located_typed hpl).symm

theorem follows_assigns (h : Traced Y n ⟨s, ⟨.store pl r :: is, ks, regs, base, dst⟩, ws⟩ inv invs W F L)
    (hx : W.accesses.lookup inv.pc = some (.assigns x r)) (hpl : Located W F pl x)
    (hr : Has W.kinds F.written r (.value x.ty)) (hstands : StandsAt W (inv.pc + 1) F is ks)
    (hstep : execute code s ws ⟨is, ks, regs, base, dst⟩ (.store pl r) = .running m') :
    Follows Y n ⟨s, ⟨.store pl r :: is, ks, regs, base, dst⟩, ws⟩ m' inv invs W L := by
  cases hstep
  have hregs : Registers W F.written ⟨is, ks, regs, base, dst⟩ := h.frame.regs.congr rfl
  have htyped := hregs.content hr
  refine ⟨{ inv with pc := inv.pc + 1 }, invs, W, F, rfl, ?_⟩
  rw [eventAt_some rfl hx]
  cases hpl with
  | slot hi =>
    exact h.stored_local ⟨inv, .assigns x r, _⟩ ⟨is, ks, regs, base, dst⟩ F (.inr rfl) rfl
      (h.frame.locals.isLocal x (mem_of_getElem? hi)) ⟨rfl, rfl⟩ hregs hstands rfl
      (h.frame.locals.assigned hi rfl rfl htyped h.top)
  | @cell i _ hi hmain =>
    obtain ⟨n', f', hdescribed⟩ := h.frame.told
    rw [hdescribed.cells] at hi
    exact h.stored_cell ⟨inv, .assigns x r, _⟩ ⟨is, ks, regs, base, dst⟩ F hi (.inr rfl) rfl htyped ⟨rfl, rfl⟩ hregs
      hstands rfl (h.frame.declared_later (Nat.le_refl _))

theorem follows_declares
    (h : Traced Y n ⟨s, ⟨.store (.slot F.locals.length) r :: is, ks, regs, base, dst⟩, ws⟩ inv invs W F L)
    (hx : W.accesses.lookup inv.pc = some (.declares x r)) (hlocal : x.isGlobal = false) (hnew : x ∉ F.locals)
    (hroom : F.locals.length < W.slots) (hr : Has W.kinds F.written r (.value x.ty))
    (hstands : StandsAt W (inv.pc + 1) { F with locals := F.locals ++ [x] } is ks)
    (hstep : execute code s ws ⟨is, ks, regs, base, dst⟩ (.store (.slot F.locals.length) r) = .running m') :
    Follows Y n ⟨s, ⟨.store (.slot F.locals.length) r :: is, ks, regs, base, dst⟩, ws⟩ m' inv invs W L := by
  cases hstep
  have hregs : Registers W F.written ⟨is, ks, regs, base, dst⟩ := h.frame.regs.congr rfl
  refine ⟨{ inv with pc := inv.pc + 1 }, invs, W, { F with locals := F.locals ++ [x] }, rfl, ?_⟩
  rw [eventAt_some rfl hx]
  exact h.stored_local ⟨inv, .declares x r, _⟩ ⟨is, ks, regs, base, dst⟩ { F with locals := F.locals ++ [x] } (.inl rfl)
    rfl hlocal ⟨rfl, rfl⟩ hregs hstands rfl (h.frame.locals.declared hlocal hnew hroom rfl rfl (hregs.content hr) h.top)

theorem follows_declaresCell
    (h : Traced Y n ⟨s, ⟨.store (.global F.cells) r :: is, ks, regs, base, dst⟩, ws⟩ inv invs W F L)
    (hx : W.accesses.lookup inv.pc = some (.declares x r)) (hcell : W.cells[F.cells]? = some x)
    (hr : Has W.kinds F.written r (.value x.ty))
    (hstands : StandsAt W (inv.pc + 1) { F with cells := F.cells + 1 } is ks)
    (hstep : execute code s ws ⟨is, ks, regs, base, dst⟩ (.store (.global F.cells) r) = .running m') :
    Follows Y n ⟨s, ⟨.store (.global F.cells) r :: is, ks, regs, base, dst⟩, ws⟩ m' inv invs W L := by
  cases hstep
  have hregs : Registers W F.written ⟨is, ks, regs, base, dst⟩ := h.frame.regs.congr rfl
  obtain ⟨n', f', hdescribed⟩ := h.frame.told
  rw [hdescribed.cells] at hcell
  refine ⟨{ inv with pc := inv.pc + 1 }, invs, W, { F with cells := F.cells + 1 }, rfl, ?_⟩
  rw [eventAt_some rfl hx]
  refine h.stored_cell ⟨inv, .declares x r, _⟩ ⟨is, ks, regs, base, dst⟩ { F with cells := F.cells + 1 } hcell (.inl rfl)
    rfl (hregs.content hr) ⟨rfl, rfl⟩ hregs hstands rfl fun hm i hi y hy => ?_
  -- the cell that this step declares is the next one; those before it were declared
  by_cases hlast : i = F.cells
  · subst hlast
    cases hcell.symm.trans hy
    exact ⟨_, List.mem_cons_self, beq_self_eq_true x⟩
  · obtain ⟨e, he, hdeclares⟩ := h.frame.declared hm i (by simp only at hi; omega) y hy
    exact ⟨e, List.mem_append_right _ he, hdeclares⟩

theorem follows_closes (h : Traced Y n ⟨s, ⟨.poll :: is, ks, regs, base, dst⟩, ws⟩ inv invs W F L)
    (hxs : W.accesses.lookup inv.pc = some (.closes xs)) (hlocals : F.locals = kept ++ gone)
    (hkept : ∀ x ∈ kept, x ∉ xs) (hstands : StandsAt W (inv.pc + 1) { F with locals := kept } is ks)
    (hstep : execute code s ws ⟨is, ks, regs, base, dst⟩ .poll = .running m') :
    Follows Y n ⟨s, ⟨.poll :: is, ks, regs, base, dst⟩, ws⟩ m' inv invs W L := by
  have hevent : W.eventAt inv ⟨s, ⟨.poll :: is, ks, regs, base, dst⟩, ws⟩ (.running m') =
      some ⟨inv, .closes xs, .zero⟩ := eventAt_some rfl hxs
  have hquiet : ∀ e ∈ [(⟨inv, .closes xs, .zero⟩ : Event)], e.invocation = inv ∧ ∀ x, e.writes x = false := by
    intro e he
    rw [mem_singleton.mp he]
    exact ⟨rfl, fun _ => rfl⟩
  simp only [execute] at hstep
  by_cases hexit : s.shouldExit = true
  · rw [if_pos hexit] at hstep
    refine h.follows_leave (follow_poll hexit) ?_ (slots_onRoots s _) (fun _ => rfl) ⟨rfl, rfl⟩ hstep
    rw [hevent]
    exact hquiet
  · rw [if_neg hexit] at hstep
    cases hstep
    refine ⟨{ inv with pc := inv.pc + 1 }, invs, W, { F with locals := kept }, follow_poll_stays hexit, ?_⟩
    rw [hevent]
    have hfewer := h.frame.locals.fewer (hlocals ▸ List.prefix_append kept gone)
    refine h.stays ⟨h.frame.told, hstands, h.frame.regs.congr rfl, h.frame.low, ?_,
      h.frame.declared_later (Nat.le_refl _)⟩ rfl rfl rfl (fun e he => (hquiet e he).1) (fun _ _ _ => rfl)
      (h.cells.later (fun e he => (hquiet e he).2) fun _ _ => rfl)
    exact hfewer.skip (fun x hx => ⟨rfl, by simpa [Event.closes] using hkept x hx⟩) fun _ _ => rfl

theorem follows_leaf (h : Traced Y n ⟨s, ⟨i :: is, ks, regs, base, dst⟩, ws⟩ inv invs W F L) (hi : i.isLeaf = true)
    (hstep : execute code s ws ⟨is, ks, regs, base, dst⟩ i = .running m') :
    Follows Y n ⟨s, ⟨i :: is, ks, regs, base, dst⟩, ws⟩ m' inv invs W L := by
  obtain ⟨F₁, hleads, hstands⟩ := h.frame.stands.leaf hi
  cases hleads with
  | plain hleaf hnone => exact h.follows_plain hleaf hnone hstands hstep
  | reads hx hpl hd => exact h.follows_reads hx hpl hd hstands hstep
  | assigns hx hpl hr => exact h.follows_assigns hx hpl hr hstands hstep
  | declares hx hlocal hnew hroom hr => exact h.follows_declares hx hlocal hnew hroom hr hstands hstep
  | declaresCell hx _ hcell hr => exact h.follows_declaresCell hx hcell hr hstands hstep
  | closes hxs hlocals hkept => exact h.follows_closes hxs hlocals hkept hstands hstep

theorem step (h : Traced Y n m inv invs W F L) (hstep : step code m = .running m') :
    Follows Y n m m' inv invs W L := by
  cases hleaf : m.atLeaf with
  | true =>
    obtain ⟨s, ⟨_ | ⟨i, is⟩, ks, regs, base, dst⟩, ws⟩ := m
    · cases hleaf
    · exact h.follows_leaf hleaf hstep
  | false =>
    cases hleaves : m.leaves with
    | true =>
      obtain ⟨s, ⟨_ | ⟨i, is⟩, ks, regs, base, dst⟩, ws⟩ := m
      · cases ks with
        | cons k ks => cases k <;> cases hleaves
        | nil =>
          refine h.follows_leave rfl ?_ rfl (fun _ => rfl) ⟨rfl, rfl⟩ hstep
          exact forall_mem_nil _
      · cases i with
        | rooted | ifThen | countLoop | whileLoop | foreverLoop => cases hleaves
        | _ => cases hleaf
    | false =>
      obtain ⟨s', a', G, hrun, hslots, hregs, hbase, hdst, hle, hstands⟩ := h.frame.stands.control hleaf hleaves
      obtain rfl := Progress.running.inj (hrun.symm.trans hstep)
      refine ⟨{ inv with pc := m.active.pcAfter inv.pc }, invs, W, G, ?_, ?_⟩
      · rw [follow]
        split
        next hcode =>
          rw [atLeaf, hcode] at hleaf
          cases hleaf
        next => rw [if_neg (by rw [hleaves]; exact Bool.false_ne_true)]
      · rw [eventAt_control hleaf]
        exact h.idle .nil (forall_mem_nil _) hslots hbase hdst hstands ((h.frame.regs.congr hregs).mono hle.written) hle.locals
          hle.cells

end Traced

end Blockwork.Tracing
