import Blockwork.Proofs.Rooting.Steps

/-! # Bodies
A frame is opened with a body and closed at its end, on the roots it was opened on. -/

namespace Blockwork

open Machine

namespace Flow

open Memory Roots Session

inductive Head (c : Rules) (b : Room) (f : Facts) : Instr → List Instr → Point → Prop where
  | step {g : Facts} {i : Instr} {is : List Instr} {pt : Point} : Step c b f i g →
      Flows c b (.body g) is pt → Head c b f i is pt
  | call {d : Reg} {fn : Nat} {args : List Reg} {is : List Instr} {pt : Point} : f.fresh = none →
      c.params ≤ d → b.framed = true → c.arity fn = some args.length → (∀ r ∈ args, f.Knows c r .heap) →
      (∃ rest, is = .poll :: rest ∧ Flows c b (.body (f.put d .heap)) rest pt) →
      Head c b f (.call d fn args) is pt
  | rooted {body is : List Instr} {e pt : Point} : f.Settled →
      Flows c { b with framed := true } (.body f.inner) body e → e.Falls f → Flows c b (.body f) is pt →
      Head c b f (.rooted body) is pt
  | ifThen {r : Reg} {body is : List Instr} {pt : Point} : RoundOk c b f body →
      Flows c b (.body f) is pt → Head c b f (.ifThen r body) is pt
  | countLoop {r : Reg} {body is : List Instr} {pt : Point} : Polled body → RoundOk c b f body →
      Flows c b (.body f) is pt → Head c b f (.countLoop r body) is pt
  | foreverLoop {body is : List Instr} {pt : Point} : c.counted = false → Polled body → RoundOk c b f body →
      Head c b f (.foreverLoop body) is pt
  | whileLoop {g : Facts} {r : Reg} {test body is : List Instr} {pt : Point} : WhileOk c b f g test body →
      Flows c b (.body g) is pt → Head c b f (.whileLoop test r body) is pt
  | whileDead : c.counted = false → Polled body → f.Settled → Flows c b (.body f) test .dead → Head c b f
      (.whileLoop test r body) is pt
  | leave : f.fresh = none → c.params ≤ d → Flows c b (.left (.loose (f.put d .plain))) is pt → Head c b f
      (.entry d .rootRestore []) is pt

theorem Facts.Weaker.refl (f : Facts) : f.Weaker f :=
  ⟨⟨fun _ _ h => h, fun _ _ h => h⟩, rfl, rfl⟩

theorem Facts.Weaker.trans {f : Facts} (hfg : f.Weaker g) (hgh : g.Weaker h) : f.Weaker h :=
  ⟨⟨fun r w hr => hgh.regs r w (hfg.regs r w hr), fun pl heap hp => hgh.places pl heap (hfg.places pl heap hp)⟩,
    hfg.fresh.trans hgh.fresh, hfg.level.trans hgh.level⟩

theorem Flows.head_of (h : Flows c b pt₀ code pt) : ∀ {f i is}, pt₀ = .body f → code = i :: is →
      ∃ g, g.Weaker f ∧ Head c b g i is pt := by
  induction h with
  | nil => exact fun _ hcode => by cases hcode
  | dead => exact fun hpt _ => by cases hpt
  | weaken hw _ ih =>
    rintro f i is ⟨⟩ hcode
    obtain ⟨g, hg, hhead⟩ := ih rfl hcode
    exact ⟨g, hg.trans hw, hhead⟩
  | step hs hrest _ =>
    rintro f i is ⟨⟩ ⟨⟩
    exact ⟨_, .refl _, .step hs hrest⟩
  | call hf hd hq ha hr hrest _ =>
    rintro f i is ⟨⟩ ⟨⟩
    exact ⟨_, .refl _, .call hf hd hq ha hr ⟨_, rfl, hrest⟩⟩
  | rooted hf hb he hrest _ _ =>
    rintro f i is ⟨⟩ ⟨⟩
    exact ⟨_, .refl _, .rooted hf hb he hrest⟩
  | ifThen hf hb he hrest _ _ =>
    rintro f i is ⟨⟩ ⟨⟩
    exact ⟨_, .refl _, .ifThen ⟨hf, _, hb, he⟩ hrest⟩
  | countLoop hf hp hb he hrest _ _ =>
    rintro f i is ⟨⟩ ⟨⟩
    exact ⟨_, .refl _, .countLoop hp ⟨hf, _, hb, he⟩ hrest⟩
  | foreverLoop hc hf hp hb he _ _ _ =>
    rintro f i is ⟨⟩ ⟨⟩
    exact ⟨_, .refl _, .foreverLoop hc hp ⟨hf, _, hb, he⟩⟩
  | whileLoop hc hp hf hg hw hl ht hb he hrest _ _ _ =>
    rintro f i is ⟨⟩ ⟨⟩
    exact ⟨_, .refl _, .whileLoop ⟨hc, hp, hf, hg, hw, hl, ht, _, hb, he⟩ hrest⟩
  | whileDead hc hp hf ht _ =>
    rintro f i is ⟨⟩ ⟨⟩
    exact ⟨_, .refl _, .whileDead hc hp hf ht⟩
  | leave hf hd hrest _ =>
    rintro f i is ⟨⟩ ⟨⟩
    exact ⟨_, .refl _, .leave hf hd hrest⟩
  | exit | ret | retValue => exact fun hpt _ => by cases hpt

theorem Flows.head (h : Flows c b (.body f) (i :: is) pt) : ∃ g, g.Weaker f ∧ Head c b g i is pt :=
  h.head_of rfl rfl

theorem Flows.body_nil (h : Flows c b (.body f) [] pt) : ∃ g, g.Weaker f ∧ pt = .body g := by
  generalize hpt : Point.body f = pt₀ at h
  generalize hcode : ([] : List Instr) = code at h
  induction h generalizing f with
  | nil => exact ⟨f, .refl f, hpt.symm⟩
  | dead => cases hpt
  | weaken hw _ ih =>
    cases hpt
    obtain ⟨g, hg, heq⟩ := ih rfl hcode
    exact ⟨g, hg.trans hw, heq⟩
  | _ => cases hcode

variable {σ : Site} {b : Room} {f g : Facts} {e : Point} {s s' : Session} {a a' : Activation}

namespace Site.Before

theorem moved (h : σ.Before b fs f s a) (hregs : a'.regs = a.regs) (hbase : a'.base = a.base) :
    σ.Before b fs f s a' := by
  have hget : a'.get = a.get := by
    funext x
    simp only [Activation.get, hregs]
  exact ⟨h.frames, h.framed, h.top, h.layered, ⟨h.fit.base.trans hbase.symm, hregs ▸ h.fit.registers,
    h.fit.allows⟩, hget ▸ h.holds⟩

theorem weaken (hw : g.Weaker f) (h : σ.Before b fs f s a) : σ.Before b fs g s a where
  frames := h.frames
  framed := h.framed
  top := fun hmain hlevel => h.top hmain (hw.level ▸ hlevel)
  layered := h.layered
  fit := h.fit
  holds := fun hc => (h.holds hc).weaken hw

theorem falls (he : (Point.body g).Falls f) (hf : f.Settled) (htop : σ.AtTop f fs)
    (h : σ.Before b fs g s a) : σ.Before b fs f s a where
  frames := h.frames
  framed := h.framed
  top := htop
  layered := h.layered
  fit := h.fit
  holds := fun hc => (h.holds hc).falls he.1 he.2 hf.fresh

theorem inner (hf : f.fresh = none) (h : σ.Before b fs f s a) : σ.Before b fs f.inner s a where
  frames := h.frames
  framed := h.framed
  top := fun _ hlevel => by cases hlevel
  layered := h.layered
  fit := h.fit
  holds := fun hc => (h.holds hc).inner hf

end Site.Before

structure Site.Stays (σ : Site) (s s' : Session) (a a' : Activation) : Prop where
  doing : σ.Doing a' s'
  dst : a'.dst = a.dst
  abort : s.abort ≠ some (.roots .underflow) → s'.abort ≠ some (.roots .underflow)
  spares : σ.rules.Careful → σ.Spares s.memory s'.memory

theorem Site.Stays.same (h : σ.Doing a' s) (hd : a'.dst = a.dst) : σ.Stays s s a a' :=
  ⟨h, hd, id, fun _ => .refl _ _⟩

theorem Site.Before.goOn (h : σ.Before b fs f s a) (hcode : Flows σ.rules b (.body f) a.code e)
    (hstack : Stack σ b fs a.konts e) : σ.Doing a s :=
  .running ⟨h, hcode, hstack⟩

theorem Site.Before.round (h : σ.Before b fs f s a) (hround : RoundOk σ.rules b f body)
    (hk : ∀ e : Point, e.Falls f → Stack σ b fs (k :: a.konts) e) : σ.Doing (a.enter body k) s := by
  obtain ⟨e, hbody, he⟩ := hround.body
  exact .running ⟨(h.inner hround.before.fresh).moved rfl rfl, hbody, hk e he⟩

theorem Site.Before.count (h : σ.Before b fs f s a) (hpolled : Polled body) (hround : RoundOk σ.rules b f body)
    (hrest : Flows σ.rules b (.body f) rest e) (hstack : Stack σ b fs a.konts e) :
    σ.Doing (a.countRound n body rest) s := by
  unfold Activation.countRound
  simp only
  split
  · exact .running ⟨h.moved rfl rfl, hrest, hstack⟩
  · exact h.round hround fun e' he => .countLoop hpolled hround he h.top hrest hstack

theorem Site.Before.test {cond : Reg} {test body rest : List Instr} (h : σ.Before b fs f s a)
    (hwhile : WhileOk σ.rules b f g test body) (hrest : Flows σ.rules b (.body g) rest e)
    (hstack : Stack σ b fs a.konts e) : σ.Doing (a.enter test (.whileTest test cond body rest)) s :=
  .running ⟨h.moved rfl rfl, hwhile.test, .whileTest hwhile h.top hrest hstack⟩

theorem Site.Before.open (h : σ.Before b fs f s a) (hf : f.Settled)
    (hbody : Flows σ.rules { b with framed := true } (.body f.inner) body e') (he : e'.Falls f)
    (hrest : Flows σ.rules b (.body f) a.code e) (hstack : Stack σ b fs a.konts e) :
    σ.Stays s s.rootBegin a (a.enter body (.closeRoots a.code)) := by
  have hsub : s.memory.roots.openFrame.2.Sub s.memory.roots := ⟨fun _ hi => hi, fun _ hp => hp⟩
  have hframes : Frames σ.entry ((σ.low, s.memory.roots) :: fs) s.memory.roots.openFrame.2 :=
    .frame h.frames (.openFrame σ.low _)
  have hfit : σ.Fit (a.enter body (.closeRoots a.code)) { b with framed := true } :=
    ⟨h.fit.base, h.fit.registers, ⟨h.fit.allows.slots, h.fit.allows.cells⟩⟩
  have htop : σ.AtTop f.inner ((σ.low, s.memory.roots) :: fs) := fun _ hlevel => nomatch hlevel
  refine ⟨.running ⟨⟨?_, fun _ => List.cons_ne_nil _ _, htop, ⟨?_, ?_⟩, hfit, fun hc => ?_⟩, hbody, ?_⟩, rfl,
    rootBegin_underflow, fun _ => ?_⟩
  · rw [rootBegin_memory]
    exact hframes
  · intro x hx
    rcases List.mem_cons.mp hx with rfl | hx
    · exact Nat.le_refl _
    · exact h.layered.le x hx
  · intro hmain x hx
    rcases List.mem_cons.mp hx with rfl | hx
    · rfl
    · exact h.layered.eq hmain x hx
  · rw [rootBegin_memory]
    have hinner := (h.holds hc).inner hf.fresh
    exact hinner.withRoots hsub hframes.sub hf.inner
      ⟨hinner.means.table, hinner.means.room, hinner.means.named⟩ fun _ _ hi => hi
  · exact .closeRoots hf he h.top
      (fun hc => ⟨(h.holds hc).means.table, (h.holds hc).means.room, (h.holds hc).means.named⟩) h.framed
      hrest hstack
  · rw [rootBegin_memory]
    exact Site.spares_withRoots _ _ _

/-! ### Closing frames -/

theorem rootEnd_eq (h : Opened low older s.memory.roots) :
    s.rootEnd = { s with memory := s.memory.withRoots older } :=
  onRoots_eq h.closeFrame

theorem rootRestore_eq (h : Frames entry fs s.memory.roots) :
    s.rootRestore = { s with memory := s.memory.withRoots entry } :=
  onRoots_eq h.restore

theorem Site.Before.close (hf : f.Settled) (h : σ.Before { b with framed := true } ((σ.low, older) :: fs) g s a)
    (he : (Point.body g).Falls f) (htop : σ.AtTop f fs) (hanchored : σ.rules.Careful → σ.Anchored f older)
    (hframed : b.framed = true → fs ≠ []) (hrest : Flows σ.rules b (.body f) rest e) (hstack : Stack σ b fs a.konts e) :
    σ.Stays s s.rootEnd a { a with code := rest } := by
  cases h.frames with
  | frame hframes hopened =>
    rw [rootEnd_eq hopened]
    refine ⟨.running ⟨⟨hframes, hframed, htop, ⟨fun x hx => h.layered.le x (List.mem_cons_of_mem _ hx),
      fun hmain x hx => h.layered.eq hmain x (List.mem_cons_of_mem _ hx)⟩, ⟨h.fit.base, h.fit.registers,
      ⟨h.fit.allows.slots, h.fit.allows.cells⟩⟩, fun hc => ?_⟩, hrest, hstack⟩, rfl, id,
      fun _ => Site.spares_withRoots _ _ _⟩
    have hholds := (h.holds hc).falls he.1 he.2 hf.fresh
    refine hholds.withRoots hopened.sub hframes.sub hf (hanchored hc) fun i hi hnamed => ?_
    have hlt : i < σ.cells.length := (List.getElem?_eq_some_iff.mp hi).1
    exact hopened.mem_older hnamed (by rw [Site.low_eq hc]; exact hlt)

theorem Site.Holds.keeps (h : σ.Holds f s.memory a.get) : σ.Keeps s a.get :=
  ⟨⟨h.orderly, h.stands⟩, h.params⟩

theorem Site.Rests.withRoots (h : σ.Rests m) (hr : r.Sub m.roots) : σ.Rests (m.withRoots r) :=
  ⟨h.orderly.withRoots hr, ⟨h.stands.toLies, h.stands.size⟩⟩

theorem Site.Keeps.withRoots {get : Reg → Value} (h : σ.Keeps s get) (hr : r.Sub s.memory.roots) :
    σ.Keeps { s with memory := s.memory.withRoots r } get :=
  ⟨h.toRests.withRoots hr, fun x hx => ⟨(h.params x hx).1, (h.params x hx).2.kept (kept_withRoots _ _ _)⟩⟩

theorem Guarded.withRoots (h : Guarded cells m none) (hr : ∀ i, i < cells.length → i ∈ m.roots.named → i ∈ r.named) :
    Guarded cells (m.withRoots r) none := by
  intro i hi
  have hlt : i < cells.length := (List.getElem?_eq_some_iff.mp hi).1
  exact (h i hi).imp id (Or.imp (hr i hlt) id)

theorem Site.Before.closeOutermost (h : σ.Before { b with framed := true } [(bound, older)] g s a)
    (hg : g.fresh = none) (hd : σ.rules.params ≤ d) (hk : a.konts = [])
    (htail : Flows σ.rules b (.left (.loose (Facts.empty.put d .plain))) tail .dead) :
    σ.Stays s s.rootEnd a { a with code := .entry d .rootRestore [] :: tail } := by
  cases h.frames with
  | frame hframes hopened =>
    cases hframes
    rw [rootEnd_eq hopened]
    have hfit : σ.Fit { a with code := .entry d .rootRestore [] :: tail } b :=
      ⟨h.fit.base, h.fit.registers, ⟨h.fit.allows.slots, h.fit.allows.cells⟩⟩
    refine ⟨.closing hd rfl hk rfl hfit htail fun hc =>
      ⟨(h.holds hc).keeps.withRoots hopened.sub, fun hmain => ?_⟩, rfl, id,
      fun _ => Site.spares_withRoots _ _ _⟩
    have hguarded := (h.holds hc).guarded
    rw [hg] at hguarded
    refine hguarded.withRoots fun i hi hnamed => hopened.mem_older hnamed ?_
    have hbound : bound = σ.low := h.layered.eq hmain (bound, σ.entry.save) List.mem_cons_self
    rw [hbound, Site.low_eq hc]
    exact hi

theorem Site.Before.guarded_entry (h : σ.Before b fs f s a) (hf : f.fresh = none)
    (hc : σ.rules.Careful) (hmain : σ.rules.main = false) : Guarded σ.cells (s.memory.withRoots σ.entry) none := by
  have hguarded := (h.holds hc).guarded
  rw [hf] at hguarded
  refine hguarded.withRoots fun i hi hnamed => h.frames.mem_entry (fun x hx => ?_) hnamed
  rw [h.layered.eq hmain x hx, Site.low_eq hc]
  exact hi

theorem Site.Fit.set (h : σ.Fit a b) : σ.Fit (a.set d v) b :=
  ⟨h.base, by rw [a.size_regs_set]; exact h.registers, h.allows⟩

theorem Site.Before.restore (h : σ.Before b fs f s a) (hf : f.fresh = none) (hd : σ.rules.params ≤ d)
    (hcode : Flows σ.rules b (.left (.loose (f.put d .plain))) a.code e) (hstack : Stack σ b fs a.konts e) :
    σ.Stays s s.rootRestore a (a.set d .zero) := by
  rw [rootRestore_eq h.frames]
  have hput : σ.rules.Careful → σ.Holds (f.put d .plain) s.memory (a.set d .zero).get := fun hc =>
    (h.holds hc).put hd (fun x hx => a.get_set_ne d x _ hx) (by
      rcases a.get_set_cases d .zero with hzero | hzero <;> rw [hzero] <;> rfl)
  refine ⟨.leaving hcode hstack h.fit.set ⟨rfl, fun hc => ?_, fun hc x w hx => ?_, h.guarded_entry hf⟩, rfl, id,
    fun _ => Site.spares_withRoots _ _ _⟩
  · exact (hput hc).keeps.toRests.withRoots h.frames.sub
  · have hfits := (hput hc).fits hx
    refine ⟨fun q hq => ?_, fun hw => ?_, fun hw => ?_⟩
    · exact ((hfits.heldValue q hq).safe (.refl _)).live (hput hc).orderly.sound
    · subst hw
      exact hfits
    · subst hw
      exact hfits.1

theorem Site.Runs.resume (ws : List Activation) (h : σ.Runs b fs f e s { a with code := [], konts := k :: a.konts }) :
    ∃ s' a', resume s ws a k = goOn s' ws a' ∧ σ.Stays s s' a a' := by
  obtain ⟨code, konts, regs, base, dst⟩ := a
  obtain ⟨hbefore, hcode, hstack⟩ := h
  obtain ⟨g, hw, rfl⟩ := hcode.body_nil
  have hend : σ.Before b fs g s ⟨code, konts, regs, base, dst⟩ := (hbefore.weaken hw).moved rfl rfl
  cases hstack with
  | next hf he htop hrest hks =>
    exact ⟨_, _, rfl, .same (.running ⟨(hend.falls he hf htop).moved rfl rfl, hrest, hks⟩) rfl⟩
  | closeRoots hf he htop hanchored hframed hrest hks =>
    exact ⟨_, _, rfl, hend.close hf he htop hanchored hframed hrest hks⟩
  | closeOutermost hd he htail => exact ⟨_, _, rfl, hend.closeOutermost he.2 hd rfl htail⟩
  | countLoop hpolled hround he htop hrest hks =>
    refine ⟨_, _, rfl, .same ((hend.falls he hround.before htop).count hpolled hround hrest hks) ?_⟩
    unfold Activation.countRound
    simp only
    split <;> rfl
  | @whileTest _ _ _ cond test body rest _ _ _ hwhile htop hrest hks =>
    cases hcond : (Activation.get ⟨code, konts, regs, base, dst⟩ cond).toBool with
    | true =>
      refine ⟨s, Activation.enter ⟨code, konts, regs, base, dst⟩ body (.whileBody test cond body rest), ?_, ?_⟩
      · simp only [resume, hcond, if_true]
      · obtain ⟨e, hbody, he⟩ := hwhile.body
        exact .same (.running ⟨(hend.inner hwhile.tested.fresh).moved rfl rfl, hbody,
          .whileBody hwhile he htop hrest hks⟩) rfl
    | false =>
      refine ⟨s, ⟨rest, konts, regs, base, dst⟩, ?_, .same (.running ⟨hend.moved rfl rfl, hrest, hks⟩) rfl⟩
      simp [resume, hcond]
  | whileBody hwhile he htop hrest hks =>
    exact ⟨_, _, rfl, .same ((hend.falls he hwhile.before htop).test hwhile hrest hks) rfl⟩
  | foreverLoop hcounted hpolled hround he htop =>
    exact ⟨_, _, rfl, .same ((hend.falls he hround.before htop).round hround fun e' he' =>
      .foreverLoop hcounted hpolled hround he' htop) rfl⟩

theorem Site.Runs.execute (ws : List Activation) (hcall : ∀ d fn args, i ≠ .call d fn args) (hpoll : i ≠ .poll)
    (h : σ.Runs b fs f e s { a with code := i :: a.code }) :
    ∃ s' a', Machine.execute p s ws a i = goOn s' ws a' ∧ σ.Stays s s' a a' := by
  obtain ⟨hbefore, hcode, hstack⟩ := h
  obtain ⟨g, hw, hhead⟩ := hcode.head
  have hnow : σ.Before b fs g s a := (hbefore.weaken hw).moved rfl rfl
  cases hhead with
  | @step g' _ _ _ hi hrest =>
    have hadvances : ∃ s' a', Machine.execute p s ws a i = goOn s' ws a' ∧
        σ.Advances fs g' s s' a a' := hi.advances hpoll hnow
    obtain ⟨s', a', hexec, had⟩ := hadvances
    have hruns : σ.Runs b fs g' e s' a' := by
      refine ⟨⟨had.frames, hnow.framed, fun hmain hlevel => ?_, hnow.layered,
        ⟨hnow.fit.base.trans had.base.symm, ?_, hnow.fit.allows⟩, fun hc => (had.holds hc).1⟩, ?_, ?_⟩
      · exact hnow.top hmain (hi.level ▸ hlevel)
      · rw [had.size]
        exact hnow.fit.registers
      · rw [had.code]
        exact hrest
      · rw [had.konts]
        exact hstack
    refine ⟨s', a', hexec, .running hruns, had.dst, fun hne => ?_, fun hc => (had.holds hc).2⟩
    · rcases had.abort with hsame | ⟨e', hnew⟩
      · rw [hsame]
        exact hne
      · rw [hnew]
        nofun
  | call _ _ _ _ _ _ => exact absurd rfl (hcall _ _ _)
  | rooted hf hbody he hrest => exact ⟨_, _, rfl, hnow.open hf hbody he hrest hstack⟩
  | @ifThen r body _ _ hround hrest =>
    cases hcond : (a.get r).toBool with
    | true =>
      refine ⟨s, a.enter body (.next a.code), by simp only [Machine.execute, hcond, if_true], ?_⟩
      exact .same (hnow.round hround fun e' he => .next hround.before he hnow.top hrest hstack) rfl
    | false =>
      refine ⟨s, a, by simp [Machine.execute, hcond], .same (hnow.goOn hrest hstack) rfl⟩
  | countLoop hpolled hround hrest =>
    refine ⟨_, _, rfl, .same (hnow.count hpolled hround hrest hstack) ?_⟩
    unfold Activation.countRound
    simp only
    split <;> rfl
  | foreverLoop hcounted hpolled hround =>
    exact ⟨_, _, rfl, .same (hnow.round hround fun e' he => .foreverLoop hcounted hpolled hround he hnow.top)
      rfl⟩
  | whileLoop hwhile hrest => exact ⟨_, _, rfl, .same (hnow.test hwhile hrest hstack) rfl⟩
  | whileDead _ _ hf htest => exact ⟨_, _, rfl, .same (.running ⟨hnow.moved rfl rfl, htest, .whileNever⟩) rfl⟩
  | leave hf hd hrest => exact ⟨_, _, rfl, hnow.restore hf hd hrest hstack⟩

end Flow

end Blockwork
