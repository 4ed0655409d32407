import Blockwork.Proofs.Rooting.Activations

/-! # Steps inside a body

An instruction that keeps the discipline, calls and polls apart, changes no continuation, leaves the open
frames as they are, and leads from what was known before it to what is known behind it. -/

namespace Blockwork

open Entry

namespace Activation

variable (a : Activation) (r x : Reg) (v : Value)

@[simp] theorem code_set : (a.set r v).code = a.code := rfl

@[simp] theorem konts_set : (a.set r v).konts = a.konts := rfl

@[simp] theorem dst_set : (a.set r v).dst = a.dst := rfl

@[simp] theorem size_regs_set : (a.set r v).regs.size = a.regs.size := by
  cases a
  simp [set]

theorem get_set_ne (h : x ≠ r) : (a.set r v).get x = a.get x := by
  cases a
  simp only [get, set, Array.getD_eq_getD_getElem?, Array.getElem?_setIfInBounds]
  rw [if_neg h.symm]

theorem get_set_self (h : r < a.regs.size) : (a.set r v).get r = v := by
  cases a
  simp_all [get, set, Array.getD_eq_getD_getElem?]

theorem get_set_cases : (a.set r v).get r = v ∨ (a.set r v).get r = .zero := by
  by_cases h : r < a.regs.size
  · exact Or.inl (a.get_set_self r v h)
  · refine Or.inr ?_
    cases a
    simp_all [get, set, Array.getD_eq_getD_getElem?]

end Activation

theorem UnaryOp.refs_run (op : UnaryOp) (v : Value) : (op.run v).refs = [] := by
  cases op <;> rfl

theorem BinaryOp.refs_run (op : BinaryOp) (v w : Value) : (op.run v w).refs = [] := by
  cases op <;> rfl

namespace Session

theorem rootBegin_memory (s : Session) : s.rootBegin.memory = s.memory.withRoots s.memory.roots.openFrame.2 := by
  unfold rootBegin onRoots check
  simp only
  split
  · exact fail_memory _ _
  · rfl

theorem rootBegin_abort (s : Session) :
    s.rootBegin.abort = s.abort ∨ s.rootBegin.abort = some (.roots .overflow) := by
  unfold rootBegin onRoots check Roots.openFrame
  simp only
  split
  next e he =>
    split at he
    · cases he
      exact (fail_abort _ _).imp_right And.right
    · cases he
  next => exact Or.inl rfl

theorem rootBegin_underflow {s : Session} (h : s.abort ≠ some (.roots .underflow)) :
    s.rootBegin.abort ≠ some (.roots .underflow) := by
  rcases s.rootBegin_abort with hsame | hnew
  · rw [hsame]
    exact h
  · rw [hnew]
    nofun

theorem onRoots_eq {s : Session} {f : Roots → Option RootError × Roots} (h : f s.memory.roots = (none, r)) :
    s.onRoots f = { s with memory := s.memory.withRoots r } := by
  unfold onRoots check
  simp only [h]
  rfl

end Session

namespace Flow

open Memory Roots Session

variable {σ : Site} {fs : List (Nat × Roots)} {g : Facts} {s s' : Session} {a a' : Activation}

theorem Step.level (h : Step c b f i g) : g.level = f.level := by
  cases h with
  | assign | declarePlain | declareHeap =>
    unfold Facts.stored
    split <;> rfl
  | _ => rfl

structure Site.Advances (σ : Site) (fs : List (Nat × Roots)) (g : Facts) (s s' : Session)
    (a a' : Activation) : Prop where
  code : a'.code = a.code
  konts : a'.konts = a.konts
  base : a'.base = a.base
  dst : a'.dst = a.dst
  size : a'.regs.size = a.regs.size
  frames : Frames σ.entry fs s'.memory.roots
  abort : s'.abort = s.abort ∨ ∃ e, s'.abort = some (.outOfMemory e)
  holds : σ.rules.Careful → σ.Holds g s'.memory a'.get ∧ σ.Spares s.memory s'.memory

theorem Site.Fit.place (h : σ.Fit a b) : a.place pl = σ.place pl := by
  cases pl with
  | slot i => simp only [Activation.place, Site.place, h.base]
  | global i => rfl

namespace Site.Before

theorem write (h : σ.Before b fs f s a) (hd : σ.rules.params ≤ d) (hw : ∀ pl, w ≠ .place pl)
    (hframes : Frames σ.entry fs s'.memory.roots)
    (habort : s'.abort = s.abort ∨ ∃ e, s'.abort = some (.outOfMemory e))
    (hh : σ.rules.Careful → σ.Holds f s.memory a.get → σ.Holds g s'.memory a.get ∧
      σ.Spares s.memory s'.memory ∧ σ.Fits s'.memory s'.memory.roots w v) :
    σ.Advances fs (g.put d w) s s' a (a.set d v) where
  code := rfl
  konts := rfl
  base := rfl
  dst := rfl
  size := a.size_regs_set d v
  frames := hframes
  abort := habort
  holds := fun hc => by
    obtain ⟨hholds, hspares, hv⟩ := hh hc (h.holds hc)
    refine ⟨hholds.put hd (fun x hx => a.get_set_ne d x v hx) ?_, hspares⟩
    rcases a.get_set_cases d v with hval | hzero
    · rw [hval]
      exact hv
    · rw [hzero]
      exact .zero hw

theorem compute (h : σ.Before b fs f s a) (hd : σ.rules.params ≤ d) (hw : ∀ pl, w ≠ .place pl)
    (hv : σ.Holds f s.memory a.get → σ.Fits s.memory s.memory.roots w v) :
    σ.Advances fs (f.put d w) s s a (a.set d v) :=
  h.write hd hw h.frames (Or.inl rfl) fun _ hh => ⟨hh, .refl _ _, hv hh⟩

theorem store (h : σ.Before b fs f s a) (hh : σ.rules.Careful → σ.Holds f s.memory a.get →
      σ.Holds g (s.memory.setSlot i v) a.get ∧ σ.Spares s.memory (s.memory.setSlot i v)) :
    σ.Advances fs g s { s with memory := s.memory.setSlot i v } a a :=
  ⟨rfl, rfl, rfl, rfl, rfl, h.frames, Or.inl rfl, fun hc => hh hc (h.holds hc)⟩

theorem call {args : List Reg} (h : σ.Before b fs f s a) (hf : f.fresh = none) (hd : σ.rules.params ≤ d)
    (ho : e.ordinary = true) (ha : e.allocates = true → b.framed = true) (hr : ∀ r ∈ args, ∃ w, f.Knows σ.rules r w) :
    σ.Advances fs (f.put d (resultWord e)) s (e.run (args.map a.get) s).2 a
      (a.set d (e.run (args.map a.get) s).1) := by
  have hfollows : Follows ((e.plan (args.map a.get) s).front s) (e.run (args.map a.get) s).2 := by
    rw [e.run_eq_carry ho]
    exact Plan.follows _ s
  refine h.write hd ?_ ?_ hfollows.records fun hc hh => ?_
  · intro pl
    unfold resultWord
    split <;> exact nofun
  · cases halloc : e.allocates with
    | true =>
      rcases hfollows.roots with hsame | ⟨p, hp⟩
      · rw [hsame]
        exact h.frames
      · rw [hp]
        exact h.frames.addTemp p (h.framed (ha halloc))
    | false =>
      rw [e.run_eq_carry ho]
      have hroots := Request.roots_carry (e.grows_plan halloc (args.map a.get) s)
        ((e.plan (args.map a.get) s).front s)
      exact hroots ▸ h.frames
  · have hargs : ∀ v ∈ args.map a.get, s.memory.HeldValue s.memory.roots v := by
      intro v hv
      obtain ⟨r, hmem, rfl⟩ := List.mem_map.mp hv
      obtain ⟨w, hw⟩ := hr r hmem
      exact (hh.fits hw).heldValue
    obtain ⟨hafter, hout⟩ := e.run_held ho hh.orderly.sound hargs
    refine ⟨hh.after hf hafter, hh.spares_after hafter, ?_⟩
    unfold resultWord
    split
    · exact ⟨hout.direct, hout.held⟩
    next hplain => exact hout.plain (if_neg hplain)

theorem flush (h : σ.Before b fs f s a) (hf : f.fresh = none) (hd : σ.rules.params ≤ d) (hb : b.framed = true) :
    σ.Advances fs (f.settle.put d .plain) s { s with memory := s.memory.withRoots s.memory.roots.flush } a
      (a.set d .zero) := by
  have hframes := h.frames.flush (h.framed hb)
  have hsub : s.memory.roots.flush.Sub s.memory.roots := by
    refine ⟨fun i hi => hi, fun p hp => ?_⟩
    rw [← Array.mem_toList_iff, Roots.flush, Array.toList_shrink] at hp
    exact Array.mem_toList_iff.mp (List.mem_of_mem_take hp)
  refine h.write hd (by simp) hframes (Or.inl rfl) fun _ hh => ?_
  have hwithin : f.settle.Within f := by
    refine ⟨fun x w hx => ?_, fun _ _ hp => hp⟩
    obtain ⟨rfl, hold⟩ := Site.settle_regs hx
    exact hold
  have hsettled : σ.Holds f.settle s.memory a.get := hh.falls hwithin hf hf
  exact ⟨hsettled.withRoots hsub hframes.sub ⟨fun x w hx => (Site.settle_regs hx).1, hf⟩
    ⟨hsettled.means.table, hsettled.means.room, hsettled.means.named⟩ fun i _ hi => hi,
    Site.spares_withRoots _ _ _, rfl⟩

theorem address (h : σ.Before b fs f s a) (hd : σ.rules.params ≤ d) (hr : d < b.registers) :
    σ.Advances fs (f.put d (.place pl)) s s a (a.set d (.place (a.place pl))) where
  code := rfl
  konts := rfl
  base := rfl
  dst := rfl
  size := a.size_regs_set d _
  frames := h.frames
  abort := Or.inl rfl
  holds := fun hc => by
    refine ⟨(h.holds hc).put hd (fun x hx => a.get_set_ne d x _ hx) ?_, .refl _ _⟩
    rw [a.get_set_self d _ (Nat.lt_of_lt_of_le hr h.fit.registers)]
    exact congrArg Value.place h.fit.place

theorem register (h : σ.Before b fs f s a) (hf : f.fresh = some pl) (hd : σ.rules.params ≤ d)
    (hr : f.regs r = some (.place pl)) (hb : b.framed = true) :
    σ.Advances fs { (f.put d .plain).declare pl true with fresh := none } s
      (run .addRoot [a.get r] s).2 a (a.set d (run .addRoot [a.get r] s).1) := by
  have hplace : σ.rules.Careful → a.get r = .place (σ.place pl) := fun hc =>
    (h.holds hc).means.regs r (.place pl) hr
  have hrun : ∀ i, a.get r = .place i → run .addRoot [a.get r] s =
        (.zero, { s with memory := s.memory.withRoots (s.memory.roots.addNamed i) }) := by
    intro i hi
    rw [hi]
    rfl
  -- the innermost frame takes the variable: cells are registered at the top of the main function only
  have hframes : Frames σ.entry fs (run .addRoot [a.get r] s).2.memory.roots := by
    by_cases hc : σ.rules.Careful
    · rw [hrun _ (hplace hc)]
      refine h.frames.addNamed (h.framed hb) fun x hx => ?_
      have hmem : x ∈ fs := List.mem_of_mem_head? hx
      cases pl with
      | slot i =>
        have hle := h.layered.le x hmem
        have hlow := σ.low_le
        have hbelow := (h.holds hc).stands.below
        simp only [Site.place]
        omega
      | global i =>
        obtain ⟨hmain, hlevel, -⟩ := (h.holds hc).awaits.cell i hf
        rw [h.top hmain hlevel x hmem]
        exact Nat.zero_le _
    · have hlow : σ.low = 0 := by
        unfold Site.low
        refine if_neg fun hcareful => hc ?_
        simpa [Rules.Careful] using hcareful
      have hzero : ∀ i, ∀ x ∈ fs.head?, x.1 ≤ i := by
        intro i x hx
        have hle := h.layered.le x (List.mem_of_mem_head? hx)
        omega
      cases hv : a.get r with
      | place i => exact h.frames.addNamed (h.framed hb) (hzero i)
      | _ => exact h.frames
  have habort : (run .addRoot [a.get r] s).2.abort = s.abort := by
    cases hv : a.get r <;> rfl
  have hput : σ.Advances fs (Facts.put { f.declare pl true with fresh := none } d .plain) s
      (run .addRoot [a.get r] s).2 a (a.set d (run .addRoot [a.get r] s).1) := by
    refine h.write hd (by simp) hframes (Or.inl habort) fun hc hh => ?_
    rw [hrun _ (hplace hc)]
    exact ⟨hh.register hf, Site.spares_withRoots _ _ _, rfl⟩
  exact hput

end Site.Before

theorem Step.advances {i : Instr} (hi : Step σ.rules b f i g) (hpoll : i ≠ .poll) (h : σ.Before b fs f s a) :
    ∃ s' a', Machine.execute p s ws a i = Machine.goOn s' ws a' ∧ σ.Advances fs g s s' a a' := by
  cases hi with
  | constant hf hd hv => exact ⟨_, _, rfl, h.compute hd nofun fun _ => hv⟩
  | unary hf hd => exact ⟨_, _, rfl, h.compute hd nofun fun _ => UnaryOp.refs_run _ _⟩
  | binary hf hd => exact ⟨_, _, rfl, h.compute hd nofun fun _ => BinaryOp.refs_run _ _ _⟩
  | element hf hd hr =>
    exact ⟨_, _, rfl, h.compute hd nofun fun hh => Site.fits_element (hh.fits hr).heldValue⟩
  | @load d ty pl hf hd hp =>
    refine ⟨_, _, rfl, h.compute hd ?_ fun hh => ?_⟩
    · intro pl'
      unfold wordOf
      split <;> exact nofun
    · rw [h.fit.place]
      exact hh.fits_load hf hp
  | assign hf hr hp hs =>
    refine ⟨_, _, rfl, h.store fun hc hh => ?_⟩
    rw [h.fit.place]
    obtain ⟨hholds, hw⟩ := hh.assign hc hf hr hp hs
    exact ⟨hholds, hw.spares hh.stands _⟩
  | declarePlain hf hr hm =>
    refine ⟨_, _, rfl, h.store fun hc hh => ?_⟩
    rw [h.fit.place]
    exact ⟨hh.declarePlain hc h.fit.allows hf hr hm, (h.fit.allows.writes hm).spares hh.stands _⟩
  | declareHeap hf hr hb hm =>
    refine ⟨_, _, rfl, h.store fun hc hh => ?_⟩
    rw [h.fit.place]
    exact ⟨hh.declareHeap hc h.fit.allows hf hr hm, (h.fit.allows.writes hm).spares hh.stands _⟩
  | address hf hd hr => exact ⟨_, _, rfl, h.address hd hr⟩
  | register hf hd hr hb => exact ⟨_, _, rfl, h.register hf hd hr hb⟩
  | entry hf hd ho ha hs hr => exact ⟨_, _, rfl, h.call hf hd ho ha hr⟩
  | flush hf hd hb => exact ⟨_, _, rfl, h.flush hf hd hb⟩
  | poll _ => exact absurd rfl hpoll

end Flow

end Blockwork
