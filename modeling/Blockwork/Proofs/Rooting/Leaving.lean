import Blockwork.Proofs.Rooting.Bodies

/-! # Behind the restore
Between its restore and its return a function makes at most one string and one box. -/

namespace Blockwork

namespace Session

theorem allocOr_made {s : Session} (h : s.allocOr size content fallback = (q, s')) :
    (q ≠ .null ∧ s'.memory.roots = s.memory.roots.addTemp q ∧ s'.memory.heap.payload? q = some content) ∨
      (q = .static fallback ∧ s'.memory.roots = s.memory.roots ∧ s'.abort.isSome = true) := by
  obtain ⟨m, hm, hcase⟩ := s.alloc_cases size content
  have hroots := (Memory.room_cases hm).1
  rcases hcase with hok | ⟨e, herr⟩
  · simp only [allocOr, hok] at h
    cases h
    refine Or.inl ⟨fun hnull => (by cases hnull), ?_, ?_⟩
    · rw [← hroots]
      rfl
    · simp only [Memory.grant, Heap.payload?_push, if_true]
  · simp only [allocOr, herr] at h
    cases h
    exact Or.inr ⟨rfl, by rw [fail_memory]; exact hroots, isSome_fail _ _⟩

end Session

theorem Roots.extend_nil (r : Roots) : r.extend [] = r := by
  simp [extend]

theorem Roots.extend_addTemp {r : Roots} (hp : p ≠ .null) : (r.extend new).addTemp p = r.extend (new ++ [p]) := by
  simp [extend, addTemp, hp]

theorem Roots.addTemp_eq {r : Roots} (hp : p ≠ .null) : r.addTemp p = r.extend [p] := by
  simp [extend, addTemp, hp]

theorem Roots.addTemp_cases (r : Roots) (p : Pointer) : r.addTemp p = r ∨ r.addTemp p = r.extend [p] := by
  by_cases hp : p = .null
  · exact Or.inl (by simp [addTemp, hp])
  · exact Or.inr (addTemp_eq hp)

theorem Roots.sub_extend (r : Roots) (new : List Pointer) : r.Sub (r.extend new) :=
  ⟨fun _ hi => hi, fun _ hp => Array.mem_append_left _ hp⟩

theorem Roots.Frames.extend (hne : fs ≠ []) (new : List Pointer) (h : Frames entry fs r) :
    Frames entry fs (r.extend new) := by
  refine h.lift hne fun low older _ ho => ?_
  obtain ⟨more, hmore⟩ := ho.temps
  exact ⟨ho.frames, ho.marks, ho.named, more ++ new.toArray, by simp [Roots.extend, hmore]⟩

namespace Flow

open Memory Roots Session

theorem boxesScalar.run (h : boxesScalar e) (v : Value) (s : Session) :
    ∃ w, e.run [v] s = anyResult (s.allocOr anySize (.any w) .nothing) := by
  rcases h with rfl | rfl | rfl | rfl
  · exact ⟨.integer v.toInteger, by simp [Entry.run, allocAny, argument]⟩
  · exact ⟨.float v.toFloat, by simp [Entry.run, allocAny, argument]⟩
  · exact ⟨.bool v.toBool, by simp [Entry.run, allocAny, argument]⟩
  · exact ⟨.color v.toInteger, by simp [Entry.run, allocAny, argument]⟩

theorem boxesPointer.run (h : boxesPointer e) (v : Value) (s : Session) :
    ∃ w, (w = .string v.pointer ∨ w = .list v.pointer) ∧
      e.run [v] s = anyResult (s.allocOr anySize (.any w) .nothing) := by
  rcases h with rfl | rfl
  · exact ⟨.string v.pointer, Or.inl rfl, by simp [Entry.run, allocAny, argument]⟩
  · exact ⟨.list v.pointer, Or.inr rfl, by simp [Entry.run, allocAny, argument]⟩

theorem boxesScalar.ordinary (h : boxesScalar e) : e.ordinary = true := by
  rcases h with rfl | rfl | rfl | rfl <;> rfl

theorem boxesPointer.ordinary (h : boxesPointer e) : e.ordinary = true := by
  rcases h with rfl | rfl <;> rfl

theorem madeFor_scalar {s : Session} (h : s.allocOr anySize (.any w) .nothing = (q, s')) :
    ∃ new, s'.memory.roots = s.memory.roots.extend new ∧ s'.MadeFor (.any q) new := by
  rcases allocOr_made h with ⟨hne, hroots, -⟩ | ⟨hstatic, hroots, -⟩
  · refine ⟨[q], ?_, .itself⟩
    rw [hroots, addTemp_eq hne]
  · refine ⟨[], ?_, .none (Or.inr ⟨.nothing, hstatic⟩)⟩
    rw [hroots, extend_nil]

theorem boxesPointer.madeFor {s : Session} (he : boxesPointer e)
    (hp : s.memory.roots = entry ∨ s.memory.roots = entry.extend [v.pointer]) (hrun : e.run [v] s = (x, s')) :
    ∃ new, s'.memory.roots = entry.extend new ∧ s'.MadeFor x new := by
  obtain ⟨w, hw, hbox⟩ := he.run v s
  rw [hbox] at hrun
  generalize hmade : s.allocOr anySize (.any w) .nothing = made at hrun
  obtain ⟨q, s₁⟩ := made
  cases hrun
  rcases allocOr_made hmade with ⟨hne, hroots, hpayload⟩ | ⟨hstatic, hroots, habort⟩
  · have hboxed : s₁.boxed q = w := by
      simp only [Session.boxed, Heap.boxed, hpayload]
    rcases hp with hentry | hentry
    · refine ⟨[q], ?_, .itself⟩
      rw [hroots, hentry, addTemp_eq hne]
    · refine ⟨[v.pointer, q], ?_, .content (hw.imp hboxed.trans hboxed.trans)⟩
      rw [hroots, hentry, extend_addTemp hne]
      rfl
  · rcases hp with hentry | hentry
    · exact ⟨[], by rw [hroots, hentry, extend_nil], .none (Or.inr ⟨.nothing, hstatic⟩)⟩
    · exact ⟨[v.pointer], by rw [hroots, hentry], .refused (congrArg Value.any hstatic) habort⟩

/-! ### Steps behind the restore -/

variable {σ : Site} {st' : Stage} {s : Session} {a : Activation} {get : Reg → Value}

theorem Site.Left.sub (h : σ.Left s get st) : σ.entry.Sub s.memory.roots := by
  cases st with
  | loose f =>
    rw [show s.memory.roots = σ.entry from h]
    exact .refl _
  | handed r =>
    rw [show s.memory.roots = σ.entry.addTemp (get r).pointer from h]
    exact (Sub.refl _).addTemp _
  | made r =>
    rcases h with hentry | hentry
    · rw [hentry]
      exact .refl _
    · rw [hentry]
      exact sub_extend _ _
  | boxed r =>
    obtain ⟨new, hentry, -⟩ := h
    rw [hentry]
    exact sub_extend _ _

structure Site.Called (σ : Site) (e : Entry) (s s' : Session) (v : Value) : Prop where
  rests : σ.Rests s'.memory
  guarded : σ.rules.main = false → Guarded σ.cells s'.memory none
  outcome : Outcome e s'.memory s'.memory.roots v
  spares : σ.Spares s.memory s'.memory

theorem Site.Leaves.called (h : σ.Leaves st s get) (ho : e.ordinary = true) (hc : σ.rules.Careful)
    (hargs : ∀ v ∈ args, s.memory.HeldValue s.memory.roots v) : σ.Called e s (e.run args s).2 (e.run args s).1 := by
  have hrests := h.rests hc
  obtain ⟨hafter, hout⟩ := e.run_held ho hrests.orderly.sound hargs
  refine ⟨⟨hrests.orderly.after hafter, hrests.stands.toLies, ?_⟩, fun hmain i hi => ?_, hout,
    hafter.kept h.left.sub, fun _ i _ => slot_congr hafter.slots i⟩
  · rw [hafter.slots]
    exact hrests.stands.size
  · rw [slot_congr hafter.slots, hafter.named]
    exact h.guarded hc hmain i hi

structure Site.Exits (σ : Site) (st' : Stage) (s s' : Session) (a a' : Activation) : Prop where
  leaves : σ.Leaves st' s' a'.get
  abort : s'.abort = s.abort ∨ ∃ e, s'.abort = some (.outOfMemory e)
  spares : σ.rules.Careful → σ.Spares s.memory s'.memory

theorem Site.Leaves.exits {e : Entry} {args : List Reg} (h : σ.Leaves st s a.get) (ho : e.ordinary = true)
    (hd : d < a.regs.size) (hargs : σ.rules.Careful → ∀ r ∈ args, s.memory.HeldValue s.memory.roots (a.get r))
    (hleft : ∀ v s', e.run (args.map a.get) s = (v, s') → ∀ get : Reg → Value, get d = v → σ.Left s' get st')
    (hcarries : ∀ (m : Memory) (get : Reg → Value), (get d).Direct → m.Held m.roots (get d).pointer →
      σ.Carries m get st') : σ.Exits st' s (e.run (args.map a.get) s).2 a (a.set d (e.run (args.map a.get) s).1) := by
  have hfollows : Follows ((e.plan (args.map a.get) s).front s) (e.run (args.map a.get) s).2 := by
    rw [e.run_eq_carry ho]
    exact Plan.follows _ s
  have hget := a.get_set_self d (e.run (args.map a.get) s).1 hd
  have hcalled : σ.rules.Careful → σ.Called e s (e.run (args.map a.get) s).2 (e.run (args.map a.get) s).1 := by
    intro hc
    refine h.called ho hc fun v hv => ?_
    obtain ⟨r, hr, rfl⟩ := List.mem_map.mp hv
    exact hargs hc r hr
  refine ⟨⟨hleft _ _ rfl _ hget, fun hc => (hcalled hc).rests, fun hc => ?_, fun hc => (hcalled hc).guarded⟩,
    hfollows.records, fun hc => (hcalled hc).spares⟩
  refine hcarries _ _ ?_ ?_
  · rw [hget]
    exact (hcalled hc).outcome.direct
  · rw [hget]
    exact (hcalled hc).outcome.held

theorem Site.Leaves.hand (h : σ.Leaves (.loose f) s a.get) (hne : d ≠ r) (hr : f.Knows σ.rules r .heap) :
    σ.Exits (.handed r) s { s with memory := s.memory.withRoots (s.memory.roots.addTemp (a.get r).pointer) } a
      (a.set d .zero) := by
  have hget : (a.set d .zero).get r = a.get r := a.get_set_ne d r .zero hne.symm
  have hentry : s.memory.roots = σ.entry := h.left
  have htemps : ∀ p ∈ (s.memory.roots.addTemp (a.get r).pointer).temps,
      p ∈ s.memory.roots.temps ∨ (p = (a.get r).pointer) := by
    intro p hp
    rcases s.memory.roots.addTemp_cases (a.get r).pointer with heq | heq
    · rw [heq] at hp
      exact Or.inl hp
    · rw [heq] at hp
      simpa [extend] using hp
  have hnamed : (s.memory.roots.addTemp (a.get r).pointer).named = s.memory.roots.named := by
    unfold addTemp
    split <;> rfl
  refine ⟨⟨?_, fun hc => ?_, fun hc => ?_, fun hc hmain i hi => ?_⟩, Or.inl rfl, fun _ => Site.spares_withRoots _ _ _⟩
  · simp only [Site.Left, hget, hentry]
    rfl
  · have hrests := h.rests hc
    obtain ⟨hlive, -, hdirect⟩ := h.carries hc r .heap hr
    have hpointer : s.memory.heap.Live (a.get r).pointer := by
      cases hv : a.get r with
      | string p | list p | any p => exact hlive p (by rw [hv]; exact List.mem_cons_self)
      | _ => exact Heap.live_null _
    refine ⟨⟨hrests.orderly.sound.withRoots (fun i hi => ?_) fun p hp => ?_, hrests.orderly.direct,
      fun i hi => ?_, hrests.orderly.plain⟩, hrests.stands.toLies, hrests.stands.size⟩
    · rw [hnamed] at hi
      exact hrests.orderly.sound.closed.named i hi
    · rcases htemps p hp with hold | rfl
      · exact hrests.orderly.sound.closed.temps p hold
      · exact hpointer
    · have hi : i ∈ (s.memory.roots.addTemp (a.get r).pointer).named := hi
      rw [hnamed] at hi
      exact hrests.orderly.bound i hi
  · simp only [Site.Carries, hget]
    refine ⟨(h.carries hc r .heap hr).2.2 rfl, ?_⟩
    by_cases hnull : (a.get r).pointer = .null
    · rw [hnull]
      exact .null
    · refine .temp ?_
      simp only [Memory.withRoots, addTemp_eq hnull, extend]
      exact Array.mem_append_right _ (by simp)
  · have hguarded := h.guarded hc hmain i hi
    simp only [Memory.withRoots, hnamed]
    exact hguarded

theorem execute_entry (p : ProgramCode) (s : Session) (ws : List Activation) (a : Activation) (d : Reg)
    (e : Entry) (args : List Reg) : Machine.execute p s ws a (.entry d e args) =
      Machine.goOn (e.run (args.map a.get) s).2 ws (a.set d (e.run (args.map a.get) s).1) := rfl

theorem Exit.exits (ws : List Activation) {i : Instr} (hexit : Exit σ.rules b st i st') (hfit : σ.Fit a b)
    (h : σ.Leaves st s a.get) : ∃ s' d v, Machine.execute p s ws a i = Machine.goOn s' ws (a.set d v) ∧
      σ.Exits st' s s' a (a.set d v) := by
  have hin : ∀ {d}, d < b.registers → d < a.regs.size := fun hd => Nat.lt_of_lt_of_le hd hfit.registers
  cases hexit with
  | @text f d t hp hd =>
    refine ⟨s, d, .text t, rfl, ⟨h.left, h.rests, fun hc x w hx => ?_, h.guarded⟩, Or.inl rfl, fun _ => .refl _ _⟩
    by_cases hxd : x = d
    · subst hxd
      rw [a.get_set_self x _ (hin hd)]
      rcases hx with ⟨hlt, -⟩ | hx
      · exact absurd hp (Nat.not_le.mpr hlt)
      · simp only [Facts.put, if_true, Option.some.injEq] at hx
        exact ⟨fun q hq => (by cases hq), fun _ => rfl, fun hw => (by cases hx.trans hw)⟩
    · rw [a.get_set_ne d x _ hxd]
      refine h.carries hc x w (hx.imp id fun hx => ?_)
      simpa only [Facts.put, hxd, if_false] using hx
  | @nothing f d hd =>
    refine ⟨_, _, _, execute_entry p s ws a _ _ _, h.exits rfl (hin hd) (fun _ r hr => absurd hr List.not_mem_nil) ?_
      fun _ _ => And.intro⟩
    rintro v s' ⟨⟩ get hget
    refine ⟨[], ?_, .none (Or.inr ⟨.nothing, by rw [hget]; rfl⟩)⟩
    exact h.left
  | @scalar f d r e hd he hr =>
    refine ⟨_, _, _, execute_entry p s ws a _ _ _, h.exits he.ordinary (hin hd) (fun hc x hx => ?_) (fun v s' hrun get hget => ?_)
      fun _ _ => And.intro⟩
    · cases List.mem_singleton.mp hx
      exact .of_refs ((h.carries hc r .plain hr).2.1 rfl)
    · obtain ⟨w, hw⟩ := he.run (a.get r) s
      have hboth : anyResult (s.allocOr anySize (.any w) .nothing) = (v, s') := hw.symm.trans hrun
      cases hboth
      obtain ⟨new, hroots, hmade⟩ := madeFor_scalar (s := s) (w := w) rfl
      refine ⟨new, hroots.trans ?_, hget ▸ hmade⟩
      exact congrArg (extend · new) h.left
  | @hand f d r hd hne hr => exact ⟨_, _, _, rfl, h.hand hne hr⟩
  | @literal f d r hd hr =>
    refine ⟨_, _, _, execute_entry p s ws a _ _ _, h.exits rfl (hin hd) (fun hc x hx => ?_) (fun v s' hrun get hget => ?_)
      fun _ _ => And.intro⟩
    · cases List.mem_singleton.mp hx
      exact .of_refs ((h.carries hc r .plain hr).2.1 rfl)
    · have hentry : s.memory.roots = σ.entry := h.left
      cases hrun
      simp only [Site.Left, hget]
      rcases allocOr_made (s := s) rfl with ⟨hne, hroots, -⟩ | ⟨-, hroots, -⟩
      · exact Or.inr (hroots.trans (by rw [addTemp_eq hne, hentry]; rfl))
      · exact Or.inl (hroots.trans hentry)
  | @boxHanded d r e hd he =>
    refine ⟨_, _, _, execute_entry p s ws a _ _ _, h.exits he.ordinary (hin hd) (fun hc x hx => ?_) (fun v s' hrun get hget => ?_)
      fun _ _ => And.intro⟩
    · cases List.mem_singleton.mp hx
      exact Held.of_direct (h.carries hc).1 (h.carries hc).2
    · have hentry : s.memory.roots = σ.entry.addTemp (a.get r).pointer := h.left
      obtain ⟨new, hroots, hmade⟩ :=
        he.madeFor ((σ.entry.addTemp_cases (a.get r).pointer).imp hentry.trans hentry.trans) hrun
      exact ⟨new, hroots, hget ▸ hmade⟩
  | @boxMade d r hd =>
    refine ⟨_, _, _, execute_entry p s ws a _ _ _, h.exits rfl (hin hd) (fun hc x hx => ?_) (fun v s' hrun get hget => ?_)
      fun _ _ => And.intro⟩
    · cases List.mem_singleton.mp hx
      exact Held.of_direct (h.carries hc).1 (h.carries hc).2
    · obtain ⟨new, hroots, hmade⟩ := boxesPointer.madeFor (Or.inl rfl) h.left hrun
      exact ⟨new, hroots, hget ▸ hmade⟩

end Flow

end Blockwork
