import Blockwork.Proofs.Rooting.Leaving

/-! # Calls and returns
A call puts the slots of the callee behind all others and leaves the caller waiting; a return cuts them off again
and hands the value over. -/

namespace Blockwork

namespace Flow

open Memory Roots Session Machine Site

variable {σ : Site} {b : Room} {fs : List (Nat × Roots)} {f : Facts} {s : Session} {a : Activation} {c : Rules}
  {cells : List Bool} {ws : List Activation}

theorem Site.Keeps.set (hd : σ.rules.params ≤ d) (h : σ.Keeps s a.get) : σ.Keeps s (a.set d v).get := by
  refine ⟨h.toRests, fun x hx => ?_⟩
  rw [a.get_set_ne d x v (Nat.ne_of_lt (Nat.lt_of_lt_of_le hx hd))]
  exact h.params x hx

theorem Site.Keeps.holds_start {get : Reg → Value} (h : σ.Keeps s get) (hg : Guarded σ.cells s.memory none)
    (hsub : σ.entry.Sub s.memory.roots) : σ.Holds (.start σ.rules σ.cells) s.memory get where
  orderly := h.orderly
  stands := h.stands
  sub := hsub
  params := h.params
  means :=
    { table := fun i heap hi => by
        simp only [Facts.start] at hi
        split at hi
        · cases hi
        · exact hi
      room := fun i heap hi => by cases hi
      named := fun pl hpl => by
        cases pl with
        | slot i => cases hpl
        | global i =>
          simp only [Facts.start] at hpl
          split at hpl
          · cases hpl
          next hmain => exact Or.inl ⟨by simpa using hmain, i, rfl⟩
      regs := fun x w hx => by cases hx
      plain := fun i hi => by cases hi }
  awaits := .none rfl
  guarded := hg

theorem sub_save (r : Roots) : r.Sub r.save := ⟨fun _ hi => hi, fun _ hp => hp⟩

theorem Site.entering_stays (hfn : FunctionOk σ.rules σ.cells fn) (hcode : fn.code = .entry d .rootSave [] :: rest)
    (ha : a.code = rest) (hkonts : a.konts = []) (hroots : s.memory.roots = σ.entry)
    (hfit : σ.Fit a (roomOf false σ.cells fn))
    (hkeeps : σ.rules.Careful → σ.Keeps s a.get ∧ Guarded σ.cells s.memory none) :
    σ.Stays s s.rootSave a (a.set d .zero) := by
  have hsave : s.rootSave = { s with memory := s.memory.withRoots σ.entry.save } := by
    rw [← hroots]
    exact onRoots_eq rfl
  have hsub : σ.entry.save.Sub s.memory.roots := by
    rw [hroots]
    exact ⟨fun _ hi => hi, fun _ hp => hp⟩
  have hguard : ∀ i, i < σ.cells.length → i ∈ s.memory.roots.named → i ∈ σ.entry.save.named := by
    intro i _ hi
    rw [hroots] at hi
    exact hi
  rw [hsave]
  cases hfn with
  | framed hd hr hfncode _ hbody he htail =>
    cases hcode.symm.trans hfncode
    refine ⟨.pending (b := roomOf false σ.cells fn) hr ha hkonts rfl hfit.set hbody he htail fun hc => ?_, rfl, id,
      fun _ => spares_withRoots _ _ _⟩
    obtain ⟨hk, hg⟩ := hkeeps hc
    exact ⟨(hk.set hd).withRoots hsub, hg.withRoots hguard⟩
  | bare hd hfncode _ hrest =>
    cases hcode.symm.trans hfncode
    have hruns : σ.Runs (roomOf false σ.cells fn) [] (.start σ.rules σ.cells) .dead
        { s with memory := s.memory.withRoots σ.entry.save } (a.set d .zero) := by
      refine ⟨⟨.start, nofun, fun _ _ => nofun, ⟨nofun, fun _ => nofun⟩, hfit.set, fun hc => ?_⟩, ?_, ?_⟩
      · obtain ⟨hk, hg⟩ := hkeeps hc
        exact ((hk.set hd).withRoots hsub).holds_start (hg.withRoots hguard) (sub_save _)
      · rw [a.code_set, ha]
        exact hrest
      · rw [a.konts_set, hkonts]
        exact .done
    exact ⟨.running hruns, rfl, id, fun _ => spares_withRoots _ _ _⟩

theorem Site.pending_stays (hd : σ.rules.params ≤ d) (ha : a.code = .entry d .rootRestore [] :: tail)
    (hkonts : a.konts = []) (hroots : s.memory.roots = σ.entry.save) (hfit : σ.Fit a b)
    (hbody : Flows σ.rules { b with framed := true } (.body (.start σ.rules σ.cells)) body e) (he : e.Falls .empty)
    (htail : Flows σ.rules b (.left (.loose (Facts.empty.put d .plain))) tail .dead)
    (hkeeps : σ.rules.Careful → σ.Keeps s a.get ∧ Guarded σ.cells s.memory none) :
    σ.Stays s s.rootBegin a (a.enter body (.closeRoots a.code)) := by
  have hframes : Frames σ.entry [(σ.outermostLow, σ.entry.save)] σ.entry.save.openFrame.2 :=
    .frame .start (.openFrame _ _)
  have hlow : σ.outermostLow ≤ σ.low := by
    unfold outermostLow
    split
    · exact Nat.zero_le _
    · exact Nat.le_refl _
  have hruns : σ.Runs { b with framed := true } [(σ.outermostLow, σ.entry.save)] (.start σ.rules σ.cells) e
      s.rootBegin (a.enter body (.closeRoots a.code)) := by
    refine ⟨⟨?_, fun _ => List.cons_ne_nil _ _, fun hmain _ x hx => ?_, ⟨fun x hx => ?_, fun hmain x hx => ?_⟩,
      ⟨hfit.base, hfit.registers, hfit.allows.slots, hfit.allows.cells⟩, fun hc => ?_⟩, hbody, ?_⟩
    · rw [rootBegin_memory, hroots]
      exact hframes
    · cases List.mem_singleton.mp hx
      simp [outermostLow, hmain]
    · cases List.mem_singleton.mp hx
      exact hlow
    · cases List.mem_singleton.mp hx
      simp [outermostLow, hmain]
    · obtain ⟨hk, hg⟩ := hkeeps hc
      have hsub : s.memory.roots.openFrame.2.Sub s.memory.roots := ⟨fun _ hi => hi, fun _ hp => hp⟩
      rw [rootBegin_memory]
      refine (hk.withRoots hsub).holds_start (hg.withRoots fun _ _ hi => hi) ?_
      rw [hroots]
      exact hframes.sub
    · simp only [Activation.enter, hkonts, ha]
      exact .closeOutermost hd he htail
  refine ⟨.running hruns, rfl, rootBegin_underflow, fun _ => ?_⟩
  rw [rootBegin_memory]
  exact spares_withRoots _ _ _

theorem Site.closing_stays (hd : σ.rules.params ≤ d) (hkonts : a.konts = []) (hroots : s.memory.roots = σ.entry.save)
    (hfit : σ.Fit a b) (htail : Flows σ.rules b (.left (.loose (Facts.empty.put d .plain))) a.code .dead)
    (hkeeps : σ.rules.Careful → σ.Keeps s a.get ∧ (σ.rules.main = false → Guarded σ.cells s.memory none)) :
    σ.Stays s s.rootRestore a (a.set d .zero) := by
  have hframes : Frames σ.entry [] s.memory.roots := hroots ▸ .start
  have hsub : σ.entry.Sub s.memory.roots := hframes.sub
  rw [rootRestore_eq hframes]
  have hleaves : σ.Leaves (.loose (Facts.empty.put d .plain))
      { s with memory := s.memory.withRoots σ.entry } (a.set d .zero).get := by
    refine ⟨rfl, fun hc => (hkeeps hc).1.toRests.withRoots hsub, fun hc x w hx => ?_, fun hc hmain => ?_⟩
    · have hk := (hkeeps hc).1.set hd (v := .zero)
      rcases hx with ⟨hlt, rfl⟩ | hx
      · obtain ⟨hdirect, hheld⟩ := hk.params x hlt
        refine ⟨fun q hq => ?_, fun hw => (by cases hw), fun _ => hdirect⟩
        exact ((Held.of_direct hdirect hheld q hq).safe hsub).live hk.orderly.sound
      · by_cases hxd : x = d
        · subst hxd
          simp only [Facts.put, if_true, Option.some.injEq] at hx
          have hzero : ((a.set x .zero).get x).refs = [] := by
            rcases a.get_set_cases x .zero with hv | hv <;> rw [hv] <;> rfl
          rw [hzero]
          exact ⟨fun q hq => (by cases hq), fun _ => rfl, fun hw => (by cases hx.trans hw)⟩
        · simp only [Facts.put, hxd, if_false] at hx
          cases hx
    · refine ((hkeeps hc).2 hmain).withRoots fun i _ hi => ?_
      rw [hroots] at hi
      exact hi
  have hstack : Stack σ b [] (a.set d .zero).konts .dead := by
    rw [a.konts_set, hkonts]
    exact .done
  exact ⟨.leaving htail hstack hfit.set hleaves, rfl, id, fun _ => spares_withRoots _ _ _⟩

theorem Rules.careful_of {main : Bool} : (c.of main n).Careful ↔ c.Careful := Iff.rfl

theorem Site.Pauses.spared (h : σ.Pauses a m r d b fs f e)
    (hspared : σ.rules.Careful → Kept r m m' ∧ ∀ i < σ.base + σ.slots, m'.slot i = m.slot i) :
    σ.Pauses a m' r d b fs f e where
  code := h.code
  stack := h.stack
  frames := h.frames
  opened := h.opened
  fresh := h.fresh
  writes := h.writes
  top := h.top
  layered := h.layered
  fit := h.fit
  lies := h.lies
  params := fun hc x hx => by
    obtain ⟨hdirect, hheld⟩ := h.params hc x hx
    exact ⟨hdirect, hheld.kept ((hspared hc).1.mono h.frames.sub)⟩
  means := fun hc => by
    obtain ⟨hkept, hslots⟩ := hspared hc
    refine ⟨(h.means hc).toAnchored, fun x w hx => ((h.means hc).regs x w hx).mono hkept (.refl _), fun i hi => ?_⟩
    have hlt : i < σ.slots := (h.means hc).room i _ hi
    rw [hslots _ (Nat.add_lt_add_left hlt _)]
    exact (h.means hc).plain i hi

structure Spared (waiting : Bool) (r : Roots) (limit : Nat) (m m' : Memory) : Prop where
  kept : Kept r m m'
  slots : waiting = true → ∀ i < limit, m'.slot i = m.slot i

theorem Waits.spared {m m' : Memory} (h : Waits c cells m r limit d ws es) :
    (c.Careful → Spared (!ws.isEmpty) r limit m m') → Waits c cells m' r limit d ws es := by
  induction h with
  | main => exact fun _ => .main
  | @call σ a r limit d b fs f e ws es n hrules hcells hlimit hpauses hwaits ih =>
    intro hspared
    have hcareful : σ.rules.Careful → c.Careful := by
      rw [hrules]
      exact Rules.careful_of.mp
    refine .call hrules hcells hlimit (hpauses.spared fun hc => ?_) (ih fun hc => ?_)
    · obtain ⟨hkept, hslots⟩ := hspared (hcareful hc)
      exact ⟨hkept, fun i hi => hslots rfl i (hlimit (hcareful hc) ▸ hi)⟩
    · obtain ⟨hkept, hslots⟩ := hspared hc
      refine ⟨hkept.mono hpauses.frames.sub, fun _ i hi => hslots rfl i ?_⟩
      have hlimit := hlimit hc
      omega

theorem Site.Spares.spared (hrules : σ.rules = c.of ws.isEmpty n) (h : σ.Spares m m') :
    Spared (!ws.isEmpty) σ.entry σ.base m m' := by
  refine ⟨h.kept, fun hne => h.slots ?_⟩
  rw [hrules]
  simpa [Rules.of] using hne

theorem Site.Stays.inOrder (hrules : σ.rules = c.of ws.isEmpty n) (hcells : σ.cells = cells)
    (hwaits : Waits c cells s.memory σ.entry σ.base a.dst ws es) (habort : s.abort ≠ some (.roots .underflow))
    (h : σ.Stays s s' a a') : InOrder c cells (σ.entry :: es) ⟨s', a', ws⟩ := by
  refine .intro hrules hcells h.doing ?_ (h.abort habort)
  rw [h.dst]
  refine hwaits.spared fun hc => (h.spares ?_).spared hrules
  rw [hrules]
  exact hc

section Cut

variable {m : Memory} {n i : Nat}

theorem getElem?_shrink (xs : Array Value) (n i : Nat) : (xs.shrink n)[i]? = if i < n then xs[i]? else none := by
  rw [← Array.getElem?_toList, Array.toList_shrink, List.getElem?_take, Array.getElem?_toList]

theorem slot_cut (hi : i < n) : slot { m with slots := m.slots.shrink n } i = m.slot i := by
  simp only [slot, Array.getD_eq_getD_getElem?, getElem?_shrink, hi, if_true]

theorem slot_cut_cases (m : Memory) (n i : Nat) : slot { m with slots := m.slots.shrink n } i = m.slot i ∨
      slot { m with slots := m.slots.shrink n } i = .zero := by
  by_cases hi : i < n
  · exact Or.inl (slot_cut hi)
  · refine Or.inr ?_
    simp only [slot, Array.getD_eq_getD_getElem?, getElem?_shrink, hi, if_false, Option.getD_none]

theorem Orderly.cut (h : Orderly cells m) (hn : n ≤ m.slots.size) (hnamed : ∀ i ∈ m.roots.named, i < n) :
    Orderly cells { m with slots := m.slots.shrink n } := by
  refine h.withSlots (fun i => (slot_cut_cases m n i).imp id fun hzero => ?_) fun i hi => ?_
  · rw [hzero]
    exact ⟨Value.direct_of_refs rfl, Heap.live_null _, fun _ => rfl⟩
  · rw [Array.size_shrink, Nat.min_eq_left hn]
    exact hnamed i hi

end Cut

structure Site.Hands (σ : Site) (s : Session) (v : Value) (new : List Pointer) : Prop where
  roots : s.memory.roots = σ.entry.extend new
  made : s.MadeFor v new
  rests : σ.rules.Careful → σ.Rests s.memory
  guarded : σ.rules.Careful → σ.rules.main = false → Guarded σ.cells s.memory none
  direct : σ.rules.Careful → v.Direct
  held : σ.rules.Careful → s.memory.Held s.memory.roots v.pointer

theorem Site.Hands.spared {new : List Pointer} (h : σ.Hands s v new) (hc : σ.rules.Careful) :
    Spared true σ.entry σ.base s.memory { s.memory with slots := s.memory.slots.shrink σ.base } := by
  refine ⟨⟨fun i hi => ?_, fun _ _ => rfl⟩, fun _ i hi => slot_cut hi⟩
  exact slot_cut ((h.rests hc).stands.outer i hi)

theorem Site.Pauses.resumed {τ : Site} {new : List Pointer}
    (hrules : τ.rules = { σ.rules with main := τ.rules.main, params := τ.rules.params }) (hcells : τ.cells = σ.cells)
    (hmain : σ.rules.main = false) (hbase : σ.rules.Careful → σ.base = τ.base + τ.slots) (hands : σ.Hands s v new)
    (h : τ.Pauses caller s.memory σ.entry d b fs f e) : τ.Doing (caller.set d v)
      { s with memory := { s.memory with slots := s.memory.slots.shrink σ.base } } := by
  have hcareful : τ.rules.Careful → σ.rules.Careful := by
    rw [hrules]
    exact id
  have hsub : σ.entry.Sub s.memory.roots := hands.roots ▸ sub_extend _ _
  have hnamed : s.memory.roots.named = σ.entry.named := by
    rw [hands.roots]
    rfl
  have hframes : Frames τ.entry fs s.memory.roots := hands.roots ▸ h.frames.extend h.opened new
  have hruns : τ.Runs b fs (f.put d .heap) e
      { s with memory := { s.memory with slots := s.memory.slots.shrink σ.base } } (caller.set d v) := by
    refine ⟨⟨hframes, fun _ => h.opened, h.top, h.layered, h.fit.set, fun hc => ?_⟩, ?_, h.stack⟩
    rotate_left
    · obtain ⟨is, hcode, hflow⟩ := h.code
      rw [caller.code_set, hcode]
      exact .step (.poll h.fresh) hflow
    have hrests := hands.rests (hcareful hc)
    obtain ⟨hkept, hslots⟩ := hands.spared (hcareful hc)
    have hsize : σ.base ≤ s.memory.slots.size := by
      have hstands := hrests.stands.size
      omega
    have hbound : ∀ i ∈ s.memory.roots.named, i < σ.base := fun i hi => hrests.stands.outer i (hnamed ▸ hi)
    have hpauses : τ.Pauses caller { s.memory with slots := s.memory.slots.shrink σ.base } σ.entry d b fs f e :=
      h.spared fun _ => ⟨hkept, fun i hi => hslots rfl i (hbase (hcareful hc) ▸ hi)⟩
    have hholds : τ.Holds f { s.memory with slots := s.memory.slots.shrink σ.base } caller.get := by
      refine
        { orderly := hcells ▸ hrests.orderly.cut hsize hbound
          stands := ⟨h.lies hc, ?_⟩
          sub := hframes.sub
          params := hpauses.params hc
          means :=
            { table := (hpauses.means hc).table
              room := (hpauses.means hc).room
              named := fun pl hpl => ((hpauses.means hc).named pl hpl).imp id (hsub.named _)
              plain := (hpauses.means hc).plain
              regs := fun x w hx => ((hpauses.means hc).regs x w hx).mono (.refl _ _) hsub }
          awaits := .none h.fresh
          guarded := ?_ }
      · simp only [Array.size_shrink, Nat.min_eq_left hsize]
        exact (hbase (hcareful hc)).symm
      · rw [h.fresh]
        intro i hi
        have hlt : i < σ.cells.length := by
          rw [← hcells]
          exact (List.getElem?_eq_some_iff.mp hi).1
        rw [slot_cut (Nat.lt_of_lt_of_le hlt hrests.stands.below)]
        exact hands.guarded (hcareful hc) hmain i (hcells ▸ hi)
    refine hholds.put h.writes (fun x hx => caller.get_set_ne d x v hx) ?_
    have hheld : σ.Fits s.memory s.memory.roots .heap v := ⟨hands.direct (hcareful hc), hands.held (hcareful hc)⟩
    rcases caller.get_set_cases d v with hv | hv
    · rw [hv]
      refine ⟨hheld.1, hheld.2.kept ⟨fun i hi => slot_cut (hbound i hi), fun _ _ => rfl⟩⟩
    · rw [hv]
      exact Site.Fits.zero nofun
  exact .running hruns

/-! ### Calls -/

theorem slot_addSlots (s : Session) (n i : Nat) : (addSlots s n).memory.slot i = s.memory.slot i := by
  simp only [addSlots, slot, Array.getD_eq_getD_getElem?, Array.getElem?_append, Array.getElem?_replicate]
  by_cases hi : i < s.memory.slots.size
  · simp only [hi, if_true]
  · simp only [hi, if_false, Array.getElem?_eq_none (Nat.not_lt.mp hi), Option.getD_none]
    split <;> rfl

theorem kept_addSlots (s : Session) (n : Nat) (r : Roots) : Kept r s.memory (addSlots s n).memory :=
  ⟨fun i _ => slot_addSlots s n i, fun _ _ => rfl⟩

theorem Orderly.addSlots (h : Orderly cells s.memory) (n : Nat) : Orderly cells (Machine.addSlots s n).memory :=
  h.withSlots (fun i => Or.inl (slot_addSlots s n i)) fun i hi => by
    rw [Array.size_append]
    exact Nat.lt_add_right _ (h.bound i hi)

theorem Guarded.addSlots (h : Guarded cells s.memory none) (n : Nat) : Guarded cells (addSlots s n).memory none := by
  intro i hi
  rw [slot_addSlots]
  exact h i hi

theorem get_start (fn : FunctionCode) (args : List Value) (base : Nat) (dst x : Reg) (hx : x < args.length) :
    (start fn args base dst).get x = args.getD x .zero := by
  simp only [start, Activation.get, Array.getD_eq_getD_getElem?, List.getD_eq_getElem?_getD]
  rw [Array.getElem?_append_left (by simpa using hx)]
  simp

theorem size_start (fn : FunctionCode) (args : List Value) (base : Nat) (dst : Reg) :
    fn.registers ≤ (start fn args base dst).regs.size := by
  simp only [start, Array.size_append, List.size_toArray, Array.size_replicate]
  omega

def calleeSite (c : Rules) (cells : List Bool) (s : Session) (fn : FunctionCode) (n : Nat) : Site where
  rules := c.of false n
  cells := cells
  entry := s.memory.roots
  base := s.memory.slots.size
  slots := fn.slots

theorem Site.Before.callee {args : List Reg} (h : σ.Before b fs f s a) (hrules : σ.rules = c.of ws.isEmpty n)
    (hcells : σ.cells = cells) (hf : f.fresh = none) (hargs : ∀ r ∈ args, f.Knows σ.rules r .heap)
    (hfn : FunctionOk (c.of false args.length) cells fn) : (calleeSite c cells s fn args.length).Doing
      (start fn (args.map a.get) s.memory.slots.size d) (addSlots s fn.slots) := by
  have hcareful : c.Careful → σ.rules.Careful := by
    rw [hrules]
    exact id
  refine .entering hfn rfl rfl rfl ⟨rfl, size_start _ _ _ _, rfl, rfl⟩ fun hc => ?_
  have hholds := h.holds (hcareful hc)
  have hlies : (calleeSite c cells s fn args.length).Lies := by
    refine ⟨?_, hholds.orderly.bound, nofun⟩
    have hbelow := hholds.stands.below
    have hsize := hholds.stands.size
    simp only [calleeSite]
    rw [← hcells]
    omega
  have hguarded := hholds.guarded
  rw [hf, hcells] at hguarded
  refine ⟨⟨⟨(hcells ▸ hholds.orderly).addSlots _, hlies, ?_⟩, fun x hx => ?_⟩, hguarded.addSlots _⟩
  · simp [calleeSite, addSlots]
  · have hx : x < args.length := hx
    rw [get_start fn _ _ _ x (by simpa using hx), List.getD_eq_getElem?_getD, List.getElem?_map,
      List.getElem?_eq_getElem hx]
    obtain ⟨hdirect, hheld⟩ := hholds.fits (hargs _ (List.getElem_mem hx))
    exact ⟨hdirect, hheld.kept (kept_addSlots _ _ _)⟩

theorem Site.Before.pauses (h : σ.Before b fs f s a) (hf : f.fresh = none) (hb : b.framed = true)
    (hd : σ.rules.params ≤ d) (hcode : ∃ is, a.code = .poll :: is ∧ Flows σ.rules b (.body (f.put d .heap)) is e)
    (hstack : Stack σ b fs a.konts e) : σ.Pauses a (addSlots s n).memory s.memory.roots d b fs f e where
  code := hcode
  stack := hstack
  frames := h.frames
  opened := h.framed hb
  fresh := hf
  writes := hd
  top := h.top
  layered := h.layered
  fit := h.fit
  lies := fun hc => (h.holds hc).stands.toLies
  params := fun hc x hx =>
    ⟨((h.holds hc).params x hx).1, ((h.holds hc).params x hx).2.kept (kept_addSlots _ _ _)⟩
  means := fun hc => by
    have hmeans := (h.holds hc).means
    refine ⟨hmeans.toAnchored, fun x w hx => (hmeans.regs x w hx).mono (kept_addSlots _ _ _) (.refl _),
      fun i hi => ?_⟩
    rw [slot_addSlots]
    exact hmeans.plain i hi

end Flow

end Blockwork
