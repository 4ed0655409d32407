import Blockwork.Proofs.Rooting.Calls

/-! # Steps of a machine in order
A step of a machine in order stays in the running function, calls another one, or returns: then the
roots are those at entry with the temporaries made for the value returned. -/

namespace Blockwork

open Machine

theorem Session.MadeFor.withSlots {s : Session} (h : s.MadeFor v new) :
    MadeFor { s with memory := { s.memory with slots := slots } } v new := by
  cases h with
  | none hv => exact .none hv
  | itself => exact .itself
  | content hq => exact .content hq
  | refused hv habort => exact .refused hv habort

namespace Flow

open Memory Roots Session

variable {σ : Site} {b : Room} {fs : List (Nat × Roots)} {f : Facts} {e : Point} {s : Session}
  {a : Activation} {c : Rules} {cells : List Bool} {ws : List Activation} {p : ProgramCode}

/-- What a step of a machine leads to, with the roots at the entry of the running function and of those
that wait. -/
inductive Turns (c : Rules) (cells : List Bool) (m : Machine) (entry : Roots) (es : List Roots) :
    Progress → Prop where
  | stays : m'.waiting = m.waiting → m'.active.dst = m.active.dst → InOrder c cells (entry :: es) m' → Turns c
      cells m entry es (.running m')
  | calls {m' : Machine} {a : Activation} : m'.waiting = a :: m.waiting → a.dst = m.active.dst →
      InOrder c cells (m.session.memory.roots :: entry :: es) m' → Turns c cells m entry es (.running m')
  | returns {m' : Machine} {caller : Activation} {v : Value} {new : List Pointer} :
      m.waiting = caller :: m'.waiting → m'.active = caller.set m.active.dst v →
      m'.session.memory.roots = entry.extend new → m'.session.MadeFor v new → InOrder c cells es m' →
      Turns c cells m entry es (.running m')
  | finishes {s : Session} {new : List Pointer} : m.waiting = [] →
      s.memory.roots = Roots.extend {} new → s.abort ≠ some (.roots .underflow) →
      Turns c cells m entry es (.finished s)

theorem Site.Leaves.hands {get : Reg → Value} (h : σ.Leaves st s get) (hr : st.result = some r) :
    ∃ new, σ.Hands s (get r) new := by
  cases st with
  | loose | made => cases hr
  | handed x =>
    cases hr
    have hentry : s.memory.roots = σ.entry.addTemp (get r).pointer := h.left
    by_cases hnull : (get r).pointer = .null
    · refine ⟨[], ?_, .none (Or.inl hnull), h.rests, h.guarded, fun hc => (h.carries hc).1,
        fun hc => (h.carries hc).2⟩
      rw [hentry, hnull, extend_nil]
      rfl
    · exact ⟨[(get r).pointer], by rw [hentry, addTemp_eq hnull], .itself, h.rests, h.guarded,
        fun hc => (h.carries hc).1, fun hc => (h.carries hc).2⟩
  | boxed x =>
    cases hr
    obtain ⟨new, hentry, hmade⟩ := h.left
    exact ⟨new, hentry, hmade, h.rests, h.guarded, fun hc => (h.carries hc).1, fun hc => (h.carries hc).2⟩

theorem Site.Leaves.hands_zero {get : Reg → Value} (h : σ.Leaves (.loose f) s get) : σ.Hands s .zero [] where
  roots := by
    rw [extend_nil]
    exact h.left
  made := .none (Or.inl rfl)
  rests := h.rests
  guarded := h.guarded
  direct := fun _ => Value.direct_of_refs rfl
  held := fun _ => .null

theorem Site.Before.hands (h : σ.Before b fs f s a) (hf : f.fresh = none) :
    σ.Hands s.rootRestore nothingResult [] := by
  rw [rootRestore_eq h.frames]
  refine ⟨(extend_nil _).symm, .none (Or.inr ⟨.nothing, rfl⟩), fun hc => ?_, h.guarded_entry hf, fun _ => ?_,
    fun _ => .static _⟩
  · exact (h.holds hc).keeps.toRests.withRoots h.frames.sub
  · exact Value.direct_of_single rfl

theorem Site.Hands.turns {s₀ : Session} {new : List Pointer} (hrules : σ.rules = c.of ws.isEmpty n)
    (hcells : σ.cells = cells) (hbase : σ.base = a.base) (hdst : a.dst = a₀.dst)
    (hwaits : Waits c cells s₀.memory σ.entry σ.base a₀.dst ws es)
    (hspares : σ.rules.Careful → σ.Spares s₀.memory s.memory) (habort : s.abort ≠ some (.roots .underflow))
    (h : σ.Hands s v new) : Turns c cells ⟨s₀, a₀, ws⟩ σ.entry es (leave s ws a v) := by
  have hnow : Waits c cells s.memory σ.entry σ.base a₀.dst ws es := by
    refine hwaits.spared fun hc => (hspares ?_).spared hrules
    rw [hrules]
    exact hc
  generalize hentry : σ.entry = entry at hnow ⊢
  generalize hlimit : σ.base = limit at hnow
  cases hnow with
  | main => exact .finishes rfl (h.roots.trans (by rw [hentry])) habort
  | @call τ caller _ _ _ b fs f e ws es n' hrules' hcells' hslots hpauses hrest =>
    subst hentry hlimit
    have hmain : σ.rules.main = false := by
      rw [hrules]
      rfl
    have hrel : τ.rules = { σ.rules with main := τ.rules.main, params := τ.rules.params } := by
      rw [hrules, hrules']
      rfl
    have hcareful : σ.rules.Careful → c.Careful := by
      rw [hrules]
      exact id
    have hdoing := hpauses.resumed hrel (hcells'.trans hcells.symm) hmain (fun hc => hslots (hcareful hc)) h
    rw [hbase, ← hdst] at hdoing
    refine .returns rfl ?_ h.roots h.made.withSlots (.intro hrules' hcells' hdoing ?_ habort)
    · rw [hdst]
    · rw [Activation.dst_set]
      refine hrest.spared fun hc => ?_
      have hc : σ.rules.Careful := by
        rw [hrules]
        exact hc
      obtain ⟨hkept, hcut⟩ := h.spared hc
      have hle := hslots (hcareful hc)
      rw [← hbase]
      exact ⟨hkept.mono hpauses.frames.sub, fun _ i hi => hcut rfl i (by omega)⟩

theorem Site.Runs.call (hp : ProgramOk c cells p) (hrules : σ.rules = c.of ws.isEmpty n) (hcells : σ.cells = cells)
    (hwaits : Waits c cells s.memory σ.entry σ.base a.dst ws es) (habort : s.abort ≠ some (.roots .underflow))
    (h : σ.Runs b fs f e s { a with code := .call d fn args :: a.code }) :
    ∃ m', Machine.execute p s ws a (.call d fn args) = .running m' ∧ m'.waiting = a :: ws ∧
      InOrder c cells (s.memory.roots :: σ.entry :: es) m' := by
  obtain ⟨hbefore, hcode, hstack⟩ := h
  obtain ⟨g, hw, hhead⟩ := hcode.head
  have hnow : σ.Before b fs g s a := (hbefore.weaken hw).moved rfl rfl
  cases hhead with
  | step hstep _ => cases hstep
  | call hg hd hb harity hargs hrest =>
    have hlook : c.arity fn = some args.length := by
      rw [hrules] at harity
      exact harity
    obtain ⟨callee, hcallee, hok⟩ := hp.functions fn args.length hlook
    have hget : p.functions.getD fn default = callee := by
      rw [Array.getD_eq_getD_getElem?, hcallee]
      rfl
    refine ⟨_, rfl, rfl, ?_⟩
    rw [hget]
    have hlimit : c.Careful → s.memory.slots.size = σ.base + σ.slots := fun hc => by
      have hsize := (hnow.holds (by rw [hrules]; exact hc)).stands.size
      exact hsize.symm
    have hnext : Waits c cells (addSlots s callee.slots).memory σ.entry σ.base a.dst ws es := by
      refine hwaits.spared fun _ => ⟨kept_addSlots _ _ _, fun _ i _ => slot_addSlots _ _ _⟩
    exact .intro (σ := calleeSite c cells s callee args.length) rfl rfl (hnow.callee hrules hcells hg hargs hok)
      (.call hrules hcells hlimit (hnow.pauses hg hb hd hrest hstack) hnext) habort

theorem Flows.left_cases (h : Flows c b (.left st) (i :: is) e) :
    (∃ st', Exit c b st i st' ∧ Flows c b (.left st') is e) ∨ (i = .ret none ∧ ∃ f, st = .loose f) ∨
      ∃ r, i = .ret (some r) ∧ st.result = some r := by
  cases h with
  | exit hexit hrest => exact Or.inl ⟨_, hexit, hrest⟩
  | ret _ => exact Or.inr (Or.inl ⟨rfl, _, rfl⟩)
  | retValue _ hr => exact Or.inr (Or.inr ⟨_, rfl, hr⟩)

theorem Site.Runs.turns (hp : ProgramOk c cells p) (hrules : σ.rules = c.of ws.isEmpty n) (hcells : σ.cells = cells)
    (hwaits : Waits c cells s.memory σ.entry σ.base a.dst ws es) (habort : s.abort ≠ some (.roots .underflow))
    (h : σ.Runs b fs f e s a) : Turns c cells ⟨s, a, ws⟩ σ.entry es (step p ⟨s, a, ws⟩) := by
  obtain ⟨code, konts, regs, base, dst⟩ := a
  cases code with
  | nil =>
    cases konts with
    | nil =>
      obtain ⟨g, -, rfl⟩ := h.code.body_nil
      cases h.stack
    | cons k ks =>
      obtain ⟨s', a', hstep, hstays⟩ := Site.Runs.resume (a := ⟨[], ks, regs, base, dst⟩) ws h
      simp only [step, hstep]
      exact .stays rfl hstays.dst (hstays.inOrder (a := ⟨[], ks, regs, base, dst⟩) hrules hcells hwaits habort)
  | cons i is =>
    let a : Activation := ⟨is, konts, regs, base, dst⟩
    have hbehind : σ.Runs b fs f e s { a with code := i :: a.code } := h
    have hwaits : Waits c cells s.memory σ.entry σ.base a.dst ws es := hwaits
    by_cases hcall : ∃ d fn args, i = .call d fn args
    · obtain ⟨d, fn, args, rfl⟩ := hcall
      obtain ⟨m', hstep, hwaiting, horder⟩ := hbehind.call (a := a) hp hrules hcells hwaits habort
      show Turns c cells _ σ.entry es (Machine.execute p s ws a (.call d fn args))
      rw [hstep]
      exact .calls hwaiting rfl horder
    by_cases hpoll : i = .poll
    · subst hpoll
      obtain ⟨g, hw, hhead⟩ := hbehind.code.head
      have hnow : σ.Before b fs g s a := (hbehind.weaken hw).moved rfl rfl
      cases hhead with
      | step hstep hrest =>
        cases hstep with
        | poll hg =>
          cases hexit : s.shouldExit with
          | false =>
            simp only [step, Machine.execute, hexit]
            exact .stays rfl rfl (.intro (a := a) hrules hcells (hnow.goOn hrest h.stack) hwaits habort)
          | true =>
            simp only [step, Machine.execute, hexit, if_true]
            have hsame := rootRestore_eq hnow.frames
            refine (hnow.hands hg).turns hrules hcells h.fit.base rfl hwaits (fun _ => ?_) ?_
            · rw [hsame]
              exact Site.spares_withRoots _ _ _
            · rw [hsame]
              exact habort
    · obtain ⟨s', a', hstep, hstays⟩ := hbehind.execute (a := a) (p := p) ws
        (fun d fn args hi => hcall ⟨d, fn, args, hi⟩) hpoll
      show Turns c cells _ σ.entry es (Machine.execute p s ws a i)
      rw [hstep]
      exact .stays rfl hstays.dst (hstays.inOrder (a := a) hrules hcells hwaits habort)

theorem InOrder.turns (hp : ProgramOk c cells p) (h : InOrder c cells (entry :: es) m) :
    Turns c cells m entry es (step p m) := by
  cases h with
  | @intro σ s a ws es n hrules hcells hdoing hwaits habort =>
    cases hdoing with
    | running hruns => exact hruns.turns hp hrules hcells hwaits habort
    | @entering fn hfn hcode hkonts hroots hfit hkeeps =>
      obtain ⟨d, rest, hfirst⟩ : ∃ d rest, fn.code = .entry d .rootSave [] :: rest := by
        cases hfn with
        | framed _ _ hcode _ _ _ _ | bare _ hcode _ _ => exact ⟨_, _, hcode⟩
      obtain ⟨code, konts, regs, base, dst⟩ := a
      cases hcode.trans hfirst
      have hstays : σ.Stays s s.rootSave ⟨rest, konts, regs, base, dst⟩ _ :=
        Site.entering_stays hfn hfirst rfl hkonts hroots ⟨hfit.base, hfit.registers, hfit.allows⟩ hkeeps
      exact .stays rfl hstays.dst (hstays.inOrder (a := ⟨rest, konts, regs, base, dst⟩) hrules hcells hwaits habort)
    | @pending b body tail d e hd hcode hkonts hroots hfit hbody he htail hkeeps =>
      obtain ⟨code, konts, regs, base, dst⟩ := a
      cases hcode
      let a : Activation := ⟨.entry d .rootRestore [] :: tail, konts, regs, base, dst⟩
      have hstays : σ.Stays s s.rootBegin a (a.enter body (.closeRoots a.code)) :=
        Site.pending_stays hd rfl hkonts hroots ⟨hfit.base, hfit.registers, hfit.allows⟩ hbody he htail hkeeps
      exact .stays rfl hstays.dst (hstays.inOrder (a := a) hrules hcells hwaits habort)
    | @closing b tail d hd hcode hkonts hroots hfit htail hkeeps =>
      obtain ⟨code, konts, regs, base, dst⟩ := a
      cases hcode
      let a : Activation := ⟨tail, konts, regs, base, dst⟩
      have hstays : σ.Stays s s.rootRestore a (a.set d .zero) :=
        Site.closing_stays hd hkonts hroots ⟨hfit.base, hfit.registers, hfit.allows⟩ htail hkeeps
      exact .stays rfl hstays.dst (hstays.inOrder (a := a) hrules hcells hwaits habort)
    | @leaving b fs st e hcode hstack hfit hleaves =>
      obtain ⟨code, konts, regs, base, dst⟩ := a
      cases code with
      | nil =>
        cases hcode
        exact (Stack.not_left hstack).elim
      | cons i is =>
        rcases hcode.left_cases with ⟨st', hexit, hrest⟩ | ⟨rfl, f, rfl⟩ | ⟨r, rfl, hr⟩
        · let a : Activation := ⟨is, konts, regs, base, dst⟩
          have hfit : σ.Fit a b := ⟨hfit.base, hfit.registers, hfit.allows⟩
          obtain ⟨s', d, v, hstep, hexits⟩ := hexit.exits (p := p) ws hfit hleaves
          show Turns c cells _ σ.entry es (Machine.execute p s ws a i)
          rw [hstep]
          have hstays : σ.Stays s s' a (a.set d v) := by
            refine ⟨.leaving hrest hstack hfit.set hexits.leaves,
              rfl, fun hne => ?_, hexits.spares⟩
            rcases hexits.abort with hsame | ⟨e', hnew⟩
            · rw [hsame]
              exact hne
            · rw [hnew]
              nofun
          exact .stays rfl hstays.dst (hstays.inOrder (a := a) hrules hcells hwaits habort)
        · exact hleaves.hands_zero.turns hrules hcells hfit.base rfl hwaits (fun _ => .refl _ _) habort
        · obtain ⟨new, hhands⟩ := hleaves.hands hr
          exact hhands.turns hrules hcells hfit.base rfl hwaits (fun _ => .refl _ _) habort

def inBody : Instr → Bool
  | .constant _ _ => false
  | .entry _ _ _ => false
  | .rooted _ => false
  | .ret _ => false
  | _ => true

theorem InOrder.head (h : InOrder c cells es m) (hcode : m.active.code = i :: rest) (hi : inBody i = true) :
    ∃ (σ : Site) (b : Room) (fs : List (Nat × Roots)) (f : Facts) (e : Point) (n : Nat),
      σ.rules = c.of m.waiting.isEmpty n ∧ σ.cells = cells ∧ σ.Before b fs f m.session m.active ∧
      Head σ.rules b f i rest e ∧ Stack σ b fs m.active.konts e := by
  cases h with
  | @intro σ s a ws es n hrules hcells hdoing hwaits habort =>
    have hnow : a.code = i :: rest := hcode
    cases hdoing with
    | entering hfn hfirst _ _ _ _ =>
      cases hfn with
      | framed _ _ hfncode _ _ _ _ | bare _ hfncode _ _ =>
        cases hcode.symm.trans (hfirst.trans hfncode)
        cases hi
    | pending _ hpending _ _ _ _ _ _ _ =>
      cases hcode.symm.trans hpending
      cases hi
    | running hruns =>
      obtain ⟨hbefore, hflow, hstack⟩ := hruns
      rw [hnow] at hflow
      obtain ⟨g, hw, hhead⟩ := hflow.head
      exact ⟨σ, _, _, g, _, n, hrules, hcells, hbefore.weaken hw, hhead, hstack⟩
    | closing _ hclosing _ _ _ _ _ =>
      cases hcode.symm.trans hclosing
      cases hi
    | leaving hflow _ _ _ =>
      rw [hnow] at hflow
      rcases hflow.left_cases with ⟨st', hexit, -⟩ | ⟨rfl, -⟩ | ⟨r, rfl, -⟩
      · cases hexit <;> cases hi
      · cases hi
      · cases hi

end Flow

end Blockwork
