import Mathlib.Algebra.GroupWithZero.Nat
import Blockwork.Proofs.Cancellation
import Blockwork.Proofs.Trimming.Lowering
import Blockwork.Proofs.Trimming.Roots

/-! # Runs without idle root frames
Only where a program opens or closes an idle frame does it take a step without its trimmed form, and each such
step uses up code that was lowered for it. -/

namespace Blockwork

open Flow Roots Machine Session

/-! ### Continuations -/

namespace Kont

def usesFrame : Kont → Bool
  | next rest => Instr.usesFrameIn rest
  | closeRoots rest => Instr.usesFrameIn rest
  | countLoop _ body rest => Instr.usesFrameIn body || Instr.usesFrameIn rest
  | whileTest test _ body rest =>
    Instr.usesFrameIn test || Instr.usesFrameIn body || Instr.usesFrameIn rest
  | whileBody test _ body rest =>
    Instr.usesFrameIn test || Instr.usesFrameIn body || Instr.usesFrameIn rest
  | foreverLoop body => Instr.usesFrameIn body

def trim (tail : List Instr) : Kont → Kont
  | next rest => next (Instr.trimAll rest ++ tail)
  | closeRoots rest => closeRoots (Instr.trimAll rest ++ tail)
  | countLoop left body rest => countLoop left (Instr.trimAll body) (Instr.trimAll rest ++ tail)
  | whileTest test cond body rest =>
    whileTest (Instr.trimAll test) cond (Instr.trimAll body) (Instr.trimAll rest ++ tail)
  | whileBody test cond body rest =>
    whileBody (Instr.trimAll test) cond (Instr.trimAll body) (Instr.trimAll rest ++ tail)
  | foreverLoop body => foreverLoop (Instr.trimAll body)

def closes : Kont → Bool
  | closeRoots _ => true
  | _ => false

end Kont

namespace Trimming

open Instr

def Serves (flags : List Bool) (uses : Bool) : Prop :=
  uses = true → flags.head? = some false

theorem Serves.of_false (h : uses = false) : Serves flags uses :=
  fun htrue => absurd (h.symm.trans htrue) Bool.false_ne_true

theorem Serves.or_iff : Serves flags (x || y) ↔ Serves flags x ∧ Serves flags y := by
  cases x <;> cases y <;> simp [Serves]

theorem Serves.cons_iff :
    Serves flags (usesFrameIn (i :: is)) ↔ Serves flags i.usesFrame ∧ Serves flags (usesFrameIn is) :=
  Serves.or_iff

/-- Continuations beside those of trimmed code. -/
inductive Trims : List Bool → List Kont → List Instr → List Kont → Prop where
  | done : Trims [] [] [] []
  | idle {tail : List Instr} : Trims flags ks' tail ks →
      Serves flags (usesFrameIn rest) →
      Trims (true :: flags) (.closeRoots rest :: ks') (trimAll rest ++ tail) ks
  | shared : Trims flags ks' tail ks →
      Serves flags (usesFrameIn rest) →
      Trims (false :: flags) (.closeRoots rest :: ks') [] (.closeRoots (trimAll rest ++ tail) :: ks)
  | plain : Trims flags ks' tail ks →
      k.closes = false → Serves flags k.usesFrame → Trims flags (k :: ks') [] (k.trim tail :: ks)

structure Trimmed (flags : List Bool) (code' : List Instr) (konts' : List Kont) (code : List Instr)
    (konts : List Kont) : Prop where
  code : ∃ tail, code = trimAll code' ++ tail ∧ Trims flags konts' tail konts
  serves : Serves flags (usesFrameIn code')

structure Alongside (a' a : Activation) : Prop where
  regs : a'.regs = a.regs
  base : a'.base = a.base
  dst : a'.dst = a.dst

structure Pair (flags : List Bool) (a' a : Activation) : Prop
    extends Trimmed flags a'.code a'.konts a.code a.konts, Alongside a' a

section Control

theorem Trims.goOn (h : Trims flags ks' tail ks) (hrest : Serves flags (usesFrameIn rest)) :
    Pair flags ⟨rest, ks', regs, base, dst⟩ ⟨trimAll rest ++ tail, ks, regs, base, dst⟩ :=
  ⟨⟨⟨tail, rfl, h⟩, hrest⟩, ⟨rfl, rfl, rfl⟩⟩

theorem Trims.enter (h : Trims flags ks' tail ks) (hk : k.closes = false) (huses : Serves flags k.usesFrame)
    (hbody : Serves flags (usesFrameIn body)) : Pair flags (Activation.enter ⟨code', ks', regs, base, dst⟩ body k)
      (Activation.enter ⟨code, ks, regs, base, dst⟩ (trimAll body) (k.trim tail)) :=
  ⟨⟨⟨[], (List.append_nil _).symm, .plain h hk huses⟩, hbody⟩, ⟨rfl, rfl, rfl⟩⟩

theorem Trims.countRound (h : Trims flags ks' tail ks) (counter : Int64)
    (hbody : Serves flags (usesFrameIn body)) (hrest : Serves flags (usesFrameIn rest)) :
    Pair flags (Activation.countRound ⟨code', ks', regs, base, dst⟩ counter body rest)
      (Activation.countRound ⟨code, ks, regs, base, dst⟩ counter (trimAll body) (trimAll rest ++ tail)) := by
  unfold Activation.countRound
  simp only
  split
  · exact h.goOn hrest
  · exact h.enter rfl (Serves.or_iff.mpr ⟨hbody, hrest⟩) hbody

theorem Trims.resume (h : Trims flags ks' tail ks) (hk : k.closes = false) (huses : Serves flags k.usesFrame)
    (regs : Array Value) (base : Nat) (dst : Reg) (s' s : Session) (ws' ws : List Activation) :
    ∃ a' a, resume s' ws' ⟨[], ks', regs, base, dst⟩ k = .running ⟨s', a', ws'⟩ ∧
      resume s ws ⟨[], ks, regs, base, dst⟩ (k.trim tail) = .running ⟨s, a, ws⟩ ∧
      Pair flags a' a := by
  cases k with
  | closeRoots rest => cases hk
  | next rest => exact ⟨_, _, rfl, rfl, h.goOn huses⟩
  | countLoop left body rest =>
    obtain ⟨hbody, hrest⟩ := Serves.or_iff.mp huses
    exact ⟨_, _, rfl, rfl, h.countRound left hbody hrest⟩
  | whileTest test cond body rest =>
    obtain ⟨htestbody, hrest⟩ := Serves.or_iff.mp huses
    obtain ⟨-, hbody⟩ := Serves.or_iff.mp htestbody
    by_cases hcond : (regs.getD cond .zero).toBool = true
    · have hnext : Pair flags (Activation.enter ⟨[], ks', regs, base, dst⟩ body _)
          (Activation.enter ⟨[], ks, regs, base, dst⟩ _ _) :=
        h.enter (k := .whileBody test cond body rest) rfl huses hbody
      exact ⟨_, _, if_pos hcond, if_pos hcond, hnext⟩
    · exact ⟨_, _, if_neg hcond, if_neg hcond, h.goOn hrest⟩
  | whileBody test cond body rest =>
    obtain ⟨htestbody, -⟩ := Serves.or_iff.mp huses
    exact ⟨_, _, rfl, rfl, h.enter (k := .whileTest test cond body rest) rfl huses (Serves.or_iff.mp htestbody).1⟩
  | foreverLoop body => exact ⟨_, _, rfl, rfl, h.enter (k := .foreverLoop body) rfl huses huses⟩

def isControl : Instr → Bool
  | .ifThen _ _ => true
  | .countLoop _ _ => true
  | .whileLoop _ _ _ => true
  | .foreverLoop _ => true
  | _ => false

theorem Trims.execute (h : Trims flags ks' tail ks) (hi : isControl i = true) (huses : Serves flags i.usesFrame)
    (hrest : Serves flags (usesFrameIn rest)) (regs : Array Value) (base : Nat) (dst : Reg) (p' p : ProgramCode)
    (s' s : Session) (ws' ws : List Activation) : ∃ a' a j, i.trim = [j] ∧
      execute p' s' ws' ⟨rest, ks', regs, base, dst⟩ i = .running ⟨s', a', ws'⟩ ∧
      execute p s ws ⟨trimAll rest ++ tail, ks, regs, base, dst⟩ j = .running ⟨s, a, ws⟩ ∧
      Pair flags a' a := by
  cases i with
  | ifThen cond body =>
    by_cases hcond : (regs.getD cond .zero).toBool = true
    · have hnext : Pair flags (Activation.enter ⟨rest, ks', regs, base, dst⟩ body _)
          (Activation.enter ⟨trimAll rest ++ tail, ks, regs, base, dst⟩ _ _) :=
        h.enter (k := .next rest) rfl hrest huses
      exact ⟨_, _, _, rfl, if_pos hcond, if_pos hcond, hnext⟩
    · exact ⟨_, _, _, rfl, if_neg hcond, if_neg hcond, h.goOn hrest⟩
  | countLoop count body => exact ⟨_, _, _, rfl, rfl, rfl, h.countRound _ huses hrest⟩
  | whileLoop test cond body =>
    exact ⟨_, _, _, rfl, rfl, rfl, h.enter (k := .whileTest test cond body rest) rfl
      (Serves.or_iff.mpr ⟨huses, hrest⟩) (Serves.or_iff.mp huses).1⟩
  | foreverLoop body => exact ⟨_, _, _, rfl, rfl, rfl, h.enter (k := .foreverLoop body) rfl huses huses⟩
  | _ => cases hi

end Control

/-! ### The next instruction -/

section Heads

variable {entry : Roots}

theorem Leaves.marks {σ : Site} {get : Reg → Value} (h : σ.Leaves st s get) :
    s.memory.roots.marks = σ.entry.marks := by
  have hleft := h.left
  cases st with
  | loose f => exact congrArg Roots.marks hleft
  | handed r =>
    rw [show s.memory.roots = _ from hleft]
    exact (addTemp_cases _ _).elim (congrArg Roots.marks) (congrArg Roots.marks)
  | made r => exact hleft.elim (congrArg Roots.marks) (congrArg Roots.marks)
  | boxed r =>
    obtain ⟨new, hroots, -⟩ := hleft
    rw [hroots]
    rfl

inductive Leaving : List Instr → Prop where
  | constant : Leaving is → Leaving (.constant d v :: is)
  | entry {e : Entry} {args : List Reg} {is : List Instr} :
      (e.ordinary = true ∨ e = .addTempRoot) → Leaving is → Leaving (.entry d e args :: is)
  | ret : Leaving (.ret r :: is)

theorem leaving_of_flows (h : Flows c b pt is e) : (∃ st, pt = .left st) → (∀ st, e ≠ .left st) → Leaving is := by
  induction h with
  | nil => exact fun ⟨st, hst⟩ he => absurd hst (he st)
  | exit hexit _ ih =>
    intro _ he
    have hrest := ih ⟨_, rfl⟩ he
    cases hexit with
    | text _ _ => exact .constant hrest
    | hand _ _ _ => exact .entry (Or.inr rfl) hrest
    | nothing | literal | boxMade => exact .entry (Or.inl rfl) hrest
    | scalar _ hs _ =>
      rcases hs with rfl | rfl | rfl | rfl
      all_goals exact .entry (Or.inl rfl) hrest
    | boxHanded _ hs =>
      rcases hs with rfl | rfl
      all_goals exact .entry (Or.inl rfl) hrest
  | ret | retValue => exact fun _ _ => .ret
  | _ => rintro ⟨_, ⟨⟩⟩

inductive Inside (c : Rules) (entry : Roots) (m : Machine) : Prop where
  | pending :
      m.active.code = .rooted body :: .entry d .rootRestore [] :: tail → Inside c entry m
  | running {σ : Site} :
      σ.rules = c.of m.waiting.isEmpty n → σ.entry = entry → σ.Runs b fs f e m.session m.active →
      Inside c entry m
  | closing : m.active.code = .entry d .rootRestore [] :: tail →
      Leaving tail → m.session.memory.roots = entry.save → Inside c entry m

theorem inside (h : InOrder c cells (entry :: es) m)
    (hmarks : m.session.memory.roots.marks.size = entry.marks.size + 1) : Inside c entry m := by
  have hne : ∀ {r : Roots}, r.marks = entry.marks → ¬ r.marks.size = entry.marks.size + 1 := fun hr hsize => by
    rw [hr] at hsize
    omega
  cases h with
  | @intro σ s a ws es n hrules hcells hdoing hwaits habort =>
    cases hdoing with
    | entering _ _ _ hroots _ _ => exact absurd hmarks (hne (congrArg Roots.marks hroots))
    | pending _ hcode _ _ _ _ _ _ _ => exact .pending hcode
    | running hruns => exact .running hrules rfl hruns
    | closing _ hcode _ hroots _ hleft _ => exact .closing hcode (leaving_of_flows hleft ⟨_, rfl⟩ nofun) hroots
    | leaving _ _ _ hleaves => exact absurd hmarks (hne (Leaves.marks hleaves))

namespace Inside

theorem goesOn (h : Inside c entry m) (hcode : m.active.code = []) : m.active.konts ≠ [] := by
  intro hkonts
  cases h with
  | pending hc => cases hcode.symm.trans hc
  | running _ _ hruns =>
    obtain ⟨-, hflow, hstack⟩ := hruns
    rw [hcode] at hflow
    rw [hkonts] at hstack
    obtain ⟨g, -, rfl⟩ := hflow.body_nil
    cases hstack
  | closing hc _ _ => cases hcode.symm.trans hc

theorem not_ret (h : Inside c entry m) (hcode : m.active.code = .ret r :: rest) : False := by
  cases h with
  | pending hc => cases hcode.symm.trans hc
  | running _ _ hruns =>
    obtain ⟨-, hflow, -⟩ := hruns
    rw [hcode] at hflow
    obtain ⟨g, -, hhead⟩ := hflow.head
    cases hhead with
    | step hstep _ => cases hstep
  | closing hc _ _ => cases hcode.symm.trans hc

theorem entry_cases (h : Inside c entry m) (hcode : m.active.code = .entry d e args :: rest) :
    e.ordinary = true ∨ e = .flush ∨ e = .addRoot ∨ (e = .rootRestore ∧ args = [] ∧ Leaving rest) := by
  cases h with
  | pending hc => cases hcode.symm.trans hc
  | running _ _ hruns =>
    obtain ⟨-, hflow, hstack⟩ := hruns
    rw [hcode] at hflow
    obtain ⟨g, -, hhead⟩ := hflow.head
    cases hhead with
    | step hstep _ =>
      cases hstep with
      | register _ _ _ _ => exact Or.inr (Or.inr (Or.inl rfl))
      | entry _ _ ho _ _ _ => exact Or.inl ho
      | flush _ _ _ => exact Or.inr (Or.inl rfl)
    | leave _ _ hleft =>
      refine Or.inr (Or.inr (Or.inr ⟨rfl, rfl, leaving_of_flows hleft ⟨_, rfl⟩ ?_⟩))
      rintro st rfl
      exact Stack.not_left hstack
  | closing hc hleft _ =>
    cases hcode.symm.trans hc
    exact Or.inr (Or.inr (Or.inr ⟨rfl, rfl, hleft⟩))

theorem restore (h : Inside c entry m) (hcode : ∀ body rest, m.active.code ≠ .rooted body :: rest) :
    m.session.memory.roots.restore = (none, entry) := by
  cases h with
  | pending hc => exact absurd hc (hcode _ _)
  | running _ hentry hruns => exact hentry ▸ hruns.frames.restore
  | closing _ _ hroots => exact hroots ▸ Frames.start.restore

theorem callee (hp : ProgramOk c cells p) (h : Inside c entry m) (hcode : m.active.code = .call d fn args :: rest) :
    ∃ f d is, p.functions[fn]? = some f ∧ f.code = .entry d .rootSave [] :: is := by
  cases h with
  | pending hc => cases hcode.symm.trans hc
  | running hrules _ hruns =>
    obtain ⟨-, hflow, -⟩ := hruns
    rw [hcode] at hflow
    obtain ⟨g, -, hhead⟩ := hflow.head
    cases hhead with
    | step hstep _ => cases hstep
    | call _ _ _ harity _ _ =>
      rw [hrules] at harity
      obtain ⟨f, hf, hok⟩ := hp.functions fn args.length harity
      cases hok with
      | framed _ _ hc _ _ _ _ | bare _ hc _ _ => exact ⟨f, _, _, hf, hc⟩
  | closing hc _ _ => cases hcode.symm.trans hc

end Inside

theorem inOrder_next (hp : ProgramOk c cells p) (h : InOrder c cells (entry :: es) m) (hstep : step p m = .running n) :
    (n.waiting = m.waiting → InOrder c cells (entry :: es) n) ∧
    (∀ a, n.waiting = a :: m.waiting → InOrder c cells (m.session.memory.roots :: entry :: es) n) ∧
    ∀ a, m.waiting = a :: n.waiting → InOrder c cells es n := by
  have hturns := h.turns hp
  rw [hstep] at hturns
  cases hturns with
  | stays hsame _ hnext =>
    refine ⟨fun _ => hnext, fun a hw => ?_, fun a hw => ?_⟩
    · exact absurd (hsame.symm.trans hw) List.ne_cons_self
    · exact absurd (hsame.trans hw) List.ne_cons_self
  | calls hmore _ hnext =>
    refine ⟨fun hw => absurd (hw.symm.trans hmore) List.ne_cons_self, fun _ _ => hnext, fun a hw => ?_⟩
    have hlen := congrArg List.length (hmore.trans (congrArg _ hw))
    simp only [List.length_cons] at hlen
    omega
  | returns hless _ _ _ hnext =>
    refine ⟨fun hw => absurd (hw.trans hless) List.ne_cons_self, fun a hw => ?_, fun _ _ => hnext⟩
    have hlen := congrArg List.length (hless.trans (congrArg _ hw))
    simp only [List.length_cons] at hlen
    omega

end Heads

/-! ### Both runs -/

theorem Alongside.set (h : Alongside a' a) (r : Reg) (v : Value) : Alongside (a'.set r v) (a.set r v) := by
  cases a
  obtain ⟨rfl, rfl, rfl⟩ := h
  exact ⟨rfl, rfl, rfl⟩

theorem Pair.set (h : Pair flags a' a) (r : Reg) (v : Value) : Pair flags (a'.set r v) (a.set r v) := by
  refine ⟨?_, h.toAlongside.set r v⟩
  exact h.toTrimmed

structure Framed (flags : List Bool) (entry' entry r' r : Roots) : Prop where
  padded : Padded flags r' r
  kept : r'.marks.size = entry'.marks.size + 1
  trimmed : r.marks.size = entry.marks.size + 1

inductive Standing (entry' entry r' r : Roots) (a' a : Activation) : Prop where
  | entering : a'.code = .entry d .rootSave [] :: rest →
      Pair [] a' a → r' = entry' → r = entry → Standing entry' entry r' r a' a
  | body : Pair flags a' a → Framed flags entry' entry r' r → Standing entry' entry r' r a' a
  | leaving (new : List Pointer) : Leaving a'.code → a.code = trimAll a'.code ++ tail →
      Alongside a' a → r' = entry'.extend new → r = entry.extend new → Standing entry' entry r' r a' a

/-- The functions that wait on both sides, with the roots at the entry of each; those that run were entered
with the first roots. -/
inductive Callers : Roots → Roots → List Roots → List Roots → List Activation → List Activation → Prop where
  | main : Callers {} {} [] [] [] []
  | call {entry : Roots}
      : Pair (false :: flags) a' a → Framed (false :: flags) entry' entry r' r →
      Callers entry' entry es' es ws' ws →
      Callers r' r (entry' :: es') (entry :: es) (a' :: ws') (a :: ws)

theorem Callers.padded {entry : Roots} (h : Callers entry' entry es' es ws' ws) :
    ∃ flags, Padded flags entry' entry := by
  cases h with
  | main => exact ⟨[], .none ⟨rfl, rfl⟩ (Nat.le_refl _)⟩
  | call _ hframed _ => exact ⟨_, hframed.padded⟩

structure Parallel (entry' entry : Roots) (es' es : List Roots) (m' m : Machine) : Prop where
  session : m'.session = m.session.withRoots m'.session.memory.roots
  standing : Standing entry' entry m'.session.memory.roots m.session.memory.roots m'.active m.active
  callers : Callers entry' entry es' es m'.waiting m.waiting

inductive Next (entry' entry : Roots) (es' es : List Roots) (m' m : Machine) : Progress → Progress → Prop where
  | stays : n'.waiting = m'.waiting → n.waiting = m.waiting → Parallel entry' entry es' es n' n → Next entry'
      entry es' es m' m (.running n') (.running n)
  | calls : n'.waiting = a' :: m'.waiting → n.waiting = a :: m.waiting →
      Parallel m'.session.memory.roots m.session.memory.roots (entry' :: es') (entry :: es) n' n →
      Next entry' entry es' es m' m (.running n') (.running n)
  | returns :
      m'.waiting = a' :: n'.waiting → m.waiting = a :: n.waiting → es' = older' :: fs' → es = older :: fs →
      Parallel older' older fs' fs n' n → Next entry' entry es' es m' m (.running n') (.running n)
  | finishes : Next entry' entry es' es m' m (.finished t) (.finished t)

section Steps

variable {entry : Roots}

theorem Callers.leave (h : Callers entry' entry es' es ws' ws) (new : List Pointer) (ha : Alongside a' a)
    (hr' : r' = entry'.extend new) (hr : s.memory.roots = entry.extend new) (v : Value) :
    Next entry' entry es' es ⟨s₀', a₀', ws'⟩ ⟨s₀, a₀, ws⟩ (Machine.leave (s.withRoots r') ws' a' v)
      (Machine.leave s ws a v) := by
  obtain ⟨hregs, hbase, hdst⟩ := ha
  simp only [Machine.leave, hbase, hdst]
  cases h with
  | main =>
    have hsame : s.withRoots r' = s := by
      rw [hr', ← hr]
      rfl
    rw [hsame]
    exact .finishes
  | call hpair hframed hcallers =>
    refine .returns rfl rfl rfl rfl ⟨rfl, .body (hpair.set _ _) ?_, hcallers⟩
    rw [hr', hr]
    exact ⟨hframed.padded.extend fun _ => rfl, hframed.kept, hframed.trimmed⟩

theorem Callers.body (h : Callers entry' entry es' es ws' ws) (hpair : Pair flags a' a)
    (hframed : Framed flags entry' entry r' t.memory.roots) :
    Parallel entry' entry es' es ⟨t.withRoots r', a', ws'⟩ ⟨t, a, ws⟩ :=
  ⟨rfl, .body hpair hframed, h⟩

def isPlain : Instr → Bool
  | .constant _ _ => true
  | .unary _ _ _ => true
  | .binary _ _ _ _ => true
  | .element _ _ => true
  | .load _ _ _ => true
  | .store _ _ => true
  | .address _ _ => true
  | _ => false

theorem execute_plain (hi : isPlain i = true) (s : Session) (regs : Array Value) (base : Nat) (dst : Reg) :
    ∃ (t : Session) (regs' : Array Value), t.memory.roots = s.memory.roots ∧ ∀ p r code konts ws,
      execute p (s.withRoots r) ws ⟨code, konts, regs, base, dst⟩ i =
        .running ⟨t.withRoots r, ⟨code, konts, regs', base, dst⟩, ws⟩ := by
  let write (d : Reg) (v : Value) := regs.setIfInBounds d v
  let read (r : Reg) := regs.getD r .zero
  let lies (pl : Place) := Activation.place ⟨[], [], regs, base, dst⟩ pl
  cases i with
  | constant d v => exact ⟨s, write d v, rfl, fun _ _ _ _ _ => rfl⟩
  | unary d op r => exact ⟨s, write d (op.run (read r)), rfl, fun _ _ _ _ _ => rfl⟩
  | binary d op l r => exact ⟨s, write d (op.run (read l) (read r)), rfl, fun _ _ _ _ _ => rfl⟩
  | element d r => exact ⟨s, write d (.element (s.elementOf (read r))), rfl, fun _ _ _ _ _ => rfl⟩
  | load d ty pl => exact ⟨s, write d ((s.memory.slot (lies pl)).readAs ty), rfl, fun _ _ _ _ _ => rfl⟩
  | store pl r => exact ⟨{ s with memory := s.memory.setSlot (lies pl) (read r) }, regs, rfl, fun _ _ _ _ _ => rfl⟩
  | address d pl => exact ⟨s, write d (.place (lies pl)), rfl, fun _ _ _ _ _ => rfl⟩
  | _ => cases hi

theorem execute_ordinary (q : ProgramCode) (d : Reg) (args : List Reg) (he : e.ordinary = true)
    (ha : r'.Agrees s.memory.roots) (regs : Array Value) (base : Nat) (dst : Reg) :
    ∃ t regs' new, t.memory.roots = s.memory.roots.extend new ∧ (e.allocates = false → new = []) ∧
      (∀ code ks ws, execute q (s.withRoots r') ws ⟨code, ks, regs, base, dst⟩ (.entry d e args) =
        .running ⟨t.withRoots (r'.extend new), ⟨code, ks, regs', base, dst⟩, ws⟩) ∧
      ∀ code ks ws, execute q.trim s ws ⟨code, ks, regs, base, dst⟩ (.entry d e args) =
        .running ⟨t, ⟨code, ks, regs', base, dst⟩, ws⟩ := by
  let words := args.map fun r => regs.getD r .zero
  obtain ⟨new, hroots, hrun, hnew⟩ := Entry.run_withRoots he ha words
  refine ⟨(e.run words s).2, regs.setIfInBounds d (e.run words s).1, new, hroots, hnew,
    fun code ks ws => ?_, fun code ks ws => rfl⟩
  show goOn (e.run words (s.withRoots r')).2 ws (Activation.set _ d (e.run words (s.withRoots r')).1) = _
  rw [hrun]
  rfl

end Steps

end Trimming

/-! ### Steps that only one side takes -/

mutual

def Instr.frameSteps : Instr → Nat
  | .rooted body => Instr.frameStepsIn body + 2
  | _ => 0

def Instr.frameStepsIn : List Instr → Nat
  | [] => 0
  | i :: is => i.frameSteps + Instr.frameStepsIn is

end

def Kont.frameSteps : Kont → Nat
  | closeRoots rest => Instr.frameStepsIn rest + 1
  | _ => 0

def Activation.frameSteps (a : Activation) : Nat :=
  Instr.frameStepsIn a.code + (a.konts.map Kont.frameSteps).sum

namespace Trimming

open Instr

inductive Moves (q : ProgramCode) (entry' entry : Roots) (es' es : List Roots) (m' m : Machine) : Prop where
  | alone (n' : Machine) : Machine.step q m' = .running n' → n'.waiting = m'.waiting →
      Parallel entry' entry es' es n' m → n'.active.frameSteps < m'.active.frameSteps →
      Moves q entry' entry es' es m' m
  | together : Next entry' entry es' es m' m (Machine.step q m') (Machine.step q.trim m) →
      Moves q entry' entry es' es m' m

section Bodies

variable {entry : Roots} {s : Session}

abbrev MovesIn (q : ProgramCode) (entry' entry : Roots) (es' es : List Roots) (s : Session) (r' : Roots)
    (ws' ws : List Activation) (ks' ks : List Kont) (regs : Array Value) (base : Nat) (dst : Reg) (tail code : List Instr) :
    Prop :=
  Moves q entry' entry es' es ⟨s.withRoots r', ⟨code, ks', regs, base, dst⟩, ws'⟩
    ⟨s, ⟨trimAll code ++ tail, ks, regs, base, dst⟩, ws⟩

theorem moves_resume (hcallers : Callers entry' entry es' es ws' ws) (htrims : Trims flags (k :: ks') tail ks)
    (hframed : Framed flags entry' entry r' s.memory.roots) :
    Moves q entry' entry es' es ⟨s.withRoots r', ⟨[], k :: ks', regs, base, dst⟩, ws'⟩
      ⟨s, ⟨tail, ks, regs, base, dst⟩, ws⟩ := by
  cases htrims with
  | @idle flags _ _ rest tail htrims hrest =>
    obtain ⟨older, hclose, hmarks, hpadded⟩ := hframed.padded.closeIdle
    refine .alone ⟨s.withRoots older, ⟨rest, ks', regs, base, dst⟩, ws'⟩ ?_ rfl ?_ ?_
    · show goOn (s.withRoots r').rootEnd _ _ = _
      rw [show (s.withRoots r').rootEnd = s.withRoots older from onRoots_eq hclose]
      rfl
    · exact hcallers.body (htrims.goOn hrest) ⟨hpadded, by rw [hmarks, hframed.kept], hframed.trimmed⟩
    · simp only [Activation.frameSteps, frameStepsIn, Kont.frameSteps, List.map_cons, List.sum_cons]
      omega
  | @shared flags _ ks rest tail htrims hrest =>
    obtain ⟨older', older, hclose', hclose, hmarks', hmarks, hpadded⟩ := hframed.padded.closeShared
    refine .together ?_
    show Next _ _ _ _ _ _ (goOn (s.withRoots r').rootEnd _ _) (goOn s.rootEnd _ _)
    rw [show (s.withRoots r').rootEnd = s.withRoots older' from onRoots_eq hclose',
      show s.rootEnd = s.withRoots older from onRoots_eq hclose]
    exact .stays rfl rfl (hcallers.body (t := s.withRoots older) (htrims.goOn hrest)
      ⟨hpadded, by rw [hmarks', hframed.kept], by rw [← hframed.trimmed, ← hmarks]; rfl⟩)
  | plain htrims hk huses =>
    obtain ⟨a', a, hstep', hstep, hpair⟩ := htrims.resume hk huses regs base dst (s.withRoots r') s ws' ws
    refine .together ?_
    show Next _ _ _ _ _ _ (resume _ _ _ _) (resume _ _ _ _)
    rw [hstep', hstep]
    exact .stays rfl rfl (hcallers.body hpair hframed)

theorem trimAll_leaf (hi : i.isLeaf = true) (rest tail : List Instr) :
    trimAll (i :: rest) ++ tail = i :: (trimAll rest ++ tail) := by
  rw [trimAll, trim_of_isLeaf hi, List.append_assoc]
  rfl

theorem Serves.shared (h : Serves flags uses) (huses : uses = true) : ∃ older, flags = false :: older := by
  cases flags with
  | nil => cases h huses
  | cons b older => exact ⟨older, by rw [Option.some.inj (h huses)]⟩

theorem next_roots (t' t : Roots) (hcallers : Callers entry' entry es' es ws' ws) (htrims : Trims flags ks' tail ks)
    (hframed : Framed flags entry' entry t' t) (hrest : Serves flags (usesFrameIn rest))
    (hrun' : e.run (args.map fun r => regs.getD r .zero) (s.withRoots r') = (v, s.withRoots t'))
    (hrun : e.run (args.map fun r => regs.getD r .zero) s = (v, s.withRoots t)) :
    Next entry' entry es' es ⟨s.withRoots r', ⟨.entry d e args :: rest, ks', regs, base, dst⟩, ws'⟩
      ⟨s, ⟨.entry d e args :: (trimAll rest ++ tail), ks, regs, base, dst⟩, ws⟩
      (execute q (s.withRoots r') ws' ⟨rest, ks', regs, base, dst⟩ (.entry d e args))
      (execute q.trim s ws ⟨trimAll rest ++ tail, ks, regs, base, dst⟩ (.entry d e args)) := by
  show Next _ _ _ _ _ _ (goOn (e.run _ _).2 _ (Activation.set _ d (e.run _ _).1))
    (goOn (e.run _ _).2 _ (Activation.set _ d (e.run _ _).1))
  rw [show args.map (Activation.get ⟨rest, ks', regs, base, dst⟩) = args.map fun r => regs.getD r .zero from rfl,
    show args.map (Activation.get ⟨trimAll rest ++ tail, ks, regs, base, dst⟩) =
      args.map fun r => regs.getD r .zero from rfl, hrun', hrun]
  exact .stays rfl rfl (hcallers.body (t := s.withRoots t) ((htrims.goOn hrest).set d v) hframed)

section

variable (hcallers : Callers entry' entry es' es ws' ws) (htrims : Trims flags ks' tail ks)
  (hframed : Framed flags entry' entry r' s.memory.roots)

include hcallers htrims hframed

theorem moves_rooted (hrest : Serves flags (usesFrameIn rest))
    (hroom : (s.withRoots r').rootBegin.abort ≠ some (.roots .overflow)) :
    MovesIn q entry' entry es' es s r' ws' ws ks' ks regs base dst tail (.rooted body :: rest) := by
  have hwithin := room_of_rootBegin hroom
  have hbegin : (s.withRoots r').rootBegin = s.withRoots r'.openFrame.2 := rootBegin_eq hwithin
  cases huses : usesFrameIn body with
  | false =>
    refine .alone ⟨s.withRoots r'.openFrame.2, ⟨body, .closeRoots rest :: ks', regs, base, dst⟩, ws'⟩ ?_ rfl ?_ ?_
    · show goOn (s.withRoots r').rootBegin _ _ = _
      rw [hbegin]
      rfl
    · refine hcallers.body ?_ ⟨hframed.padded.openIdle, hframed.kept, hframed.trimmed⟩
      refine ⟨⟨⟨trimAll rest ++ tail, ?_, .idle htrims hrest⟩, .of_false huses⟩, ⟨rfl, rfl, rfl⟩⟩
      simp [trimAll, Instr.trim, huses]
    · simp only [Activation.frameSteps, frameStepsIn, frameSteps, Kont.frameSteps, List.map_cons, List.sum_cons]
      omega
  | true =>
    have hroom' : s.abort.isSome = true ∨ s.memory.roots.openFrame.2.depth ≤ maxRootDepth :=
      hwithin.imp_right fun hd => Nat.le_trans hframed.padded.openShared.depth_le hd
    have hbegin' : s.rootBegin = s.withRoots s.memory.roots.openFrame.2 := rootBegin_eq hroom'
    have hcode : trimAll (.rooted body :: rest) ++ tail = .rooted (trimAll body) :: (trimAll rest ++ tail) := by
      simp [trimAll, Instr.trim, huses]
    refine .together ?_
    rw [hcode]
    show Next _ _ _ _ _ _ (goOn (s.withRoots r').rootBegin _ _) (goOn s.rootBegin _ _)
    rw [hbegin, hbegin']
    refine .stays rfl rfl (hcallers.body (t := s.withRoots s.memory.roots.openFrame.2) ?_
      ⟨hframed.padded.openShared, hframed.kept, hframed.trimmed⟩)
    exact ⟨⟨⟨[], (List.append_nil _).symm, .shared htrims hrest⟩, fun _ => rfl⟩, ⟨rfl, rfl, rfl⟩⟩

theorem moves_plain (hrest : Serves flags (usesFrameIn rest))
    (hi : isPlain i = true) : MovesIn q entry' entry es' es s r' ws' ws ks' ks regs base dst tail (i :: rest) := by
  have hleaf : i.isLeaf = true := by
    cases i with
    | rooted | ifThen | countLoop | whileLoop | foreverLoop => cases hi
    | _ => rfl
  obtain ⟨t, regs', hroots, hstep⟩ := execute_plain hi s regs base dst
  refine .together ?_
  rw [trimAll_leaf hleaf]
  show Next _ _ _ _ _ _ (execute _ _ _ _ _) (execute _ (s.withRoots s.memory.roots) _ _ _)
  rw [hstep, hstep, ← hroots]
  refine .stays rfl rfl (hcallers.body (t := t) (htrims.goOn hrest) ?_)
  rw [hroots]
  exact hframed

theorem moves_control (huses : Serves flags i.usesFrame)
    (hrest : Serves flags (usesFrameIn rest)) (hi : isControl i = true) :
    MovesIn q entry' entry es' es s r' ws' ws ks' ks regs base dst tail (i :: rest) := by
  obtain ⟨a', a, j, hj, hstep', hstep, hpair⟩ := htrims.execute hi huses hrest regs base dst q q.trim
    (s.withRoots r') s ws' ws
  refine .together ?_
  rw [show trimAll (i :: rest) ++ tail = j :: (trimAll rest ++ tail) by rw [trimAll, hj]; rfl]
  show Next _ _ _ _ _ _ (execute _ _ _ _ _) (execute _ _ _ _ _)
  rw [hstep', hstep]
  exact .stays rfl rfl (hcallers.body hpair hframed)

theorem moves_entry (huses : Serves flags e.usesFrame) (hrest : Serves flags (usesFrameIn rest))
    (hin' : Inside c' entry' ⟨s.withRoots r', ⟨.entry d e args :: rest, ks', regs, base, dst⟩, ws'⟩)
    (hin : Inside c entry ⟨s, ⟨trimAll (.entry d e args :: rest) ++ tail, ks, regs, base, dst⟩, ws⟩) :
    MovesIn q entry' entry es' es s r' ws' ws ks' ks regs base dst tail (.entry d e args :: rest) := by
  refine .together ?_
  rw [trimAll_leaf rfl] at hin ⊢
  show Next _ _ _ _ _ _ (execute q (s.withRoots r') ws' ⟨rest, ks', regs, base, dst⟩ (.entry d e args))
    (execute q.trim s ws ⟨trimAll rest ++ tail, ks, regs, base, dst⟩ (.entry d e args))
  rcases hin'.entry_cases rfl with hordinary | rfl | rfl | ⟨rfl, rfl, hleaving⟩
  · obtain ⟨t, regs', new, hroots, hnew, hstep', hstep⟩ :=
      execute_ordinary q d args hordinary hframed.padded.agrees regs base dst
    rw [hstep', hstep]
    refine .stays rfl rfl (hcallers.body (t := t) (htrims.goOn hrest) ?_)
    rw [hroots]
    refine ⟨hframed.padded.extend fun hne => huses ?_, hframed.kept, hframed.trimmed⟩
    cases halloc : e.allocates with
    | true => simp [Entry.usesFrame, halloc]
    | false => exact absurd (hnew halloc) hne
  · obtain ⟨older, rfl⟩ := huses.shared rfl
    exact next_roots _ _ hcallers htrims ⟨hframed.padded.flush, hframed.kept, hframed.trimmed⟩ hrest rfl rfl
  · obtain ⟨older, rfl⟩ := huses.shared rfl
    by_cases hplace : ∃ i, argument (args.map fun r => regs.getD r .zero) 0 = .place i
    · obtain ⟨i, hplace⟩ := hplace
      refine next_roots (v := .zero) _ _ hcallers htrims ⟨hframed.padded.addNamed i, hframed.kept, hframed.trimmed⟩ hrest ?_ ?_
      · simp only [Entry.run, hplace]
        rfl
      · simp only [Entry.run, hplace]
        rfl
    · have hnone : ∀ t : Session, Entry.run .addRoot (args.map fun r => regs.getD r .zero) t = (.zero, t) := by
        intro t
        simp only [Entry.run]
        split
        next i hi => exact absurd ⟨i, hi⟩ hplace
        next => rfl
      exact next_roots _ _ hcallers htrims hframed hrest (hnone _) (hnone _)
  · have hrestore' : (s.withRoots r').rootRestore = s.withRoots entry' :=
      onRoots_eq (hin'.restore (by simp))
    have hrestore : s.rootRestore = s.withRoots entry := onRoots_eq (hin.restore (by simp))
    show Next _ _ _ _ _ _ (goOn (s.withRoots r').rootRestore _ _) (goOn s.rootRestore _ _)
    rw [hrestore', hrestore]
    refine .stays rfl rfl ⟨rfl, .leaving [] hleaving rfl ⟨rfl, rfl, rfl⟩ ?_ ?_, hcallers⟩
    · exact (extend_nil entry').symm
    · exact (extend_nil entry).symm

theorem moves_poll (hrest : Serves flags (usesFrameIn rest))
    (hin' : Inside c' entry' ⟨s.withRoots r', ⟨.poll :: rest, ks', regs, base, dst⟩, ws'⟩)
    (hin : Inside c entry ⟨s, ⟨trimAll (.poll :: rest) ++ tail, ks, regs, base, dst⟩, ws⟩) :
    MovesIn q entry' entry es' es s r' ws' ws ks' ks regs base dst tail (.poll :: rest) := by
  refine .together ?_
  rw [trimAll_leaf rfl] at hin ⊢
  show Next _ _ _ _ _ _ (if s.shouldExit then _ else _) (if s.shouldExit then _ else _)
  by_cases hexit : s.shouldExit = true
  · rw [if_pos hexit, if_pos hexit,
      show (s.withRoots r').rootRestore = s.withRoots entry' from onRoots_eq (hin'.restore (by simp)),
      show s.rootRestore = s.withRoots entry from onRoots_eq (hin.restore (by simp))]
    exact hcallers.leave (s := s.withRoots entry) [] ⟨rfl, rfl, rfl⟩ (extend_nil entry').symm
      (extend_nil entry).symm _
  · rw [if_neg hexit, if_neg hexit]
    exact .stays rfl rfl (hcallers.body (htrims.goOn hrest) hframed)

theorem moves_call (hp' : ProgramOk c' cells' q) (hown : q.OwnFrames)
    (huses : Serves flags true) (hrest : Serves flags (usesFrameIn rest))
    (hin' : Inside c' entry' ⟨s.withRoots r', ⟨.call d fn args :: rest, ks', regs, base, dst⟩, ws'⟩) :
    MovesIn q entry' entry es' es s r' ws' ws ks' ks regs base dst tail (.call d fn args :: rest) := by
  obtain ⟨f, d₀, is, hf, hcode⟩ := hin'.callee hp' rfl
  obtain ⟨older, rfl⟩ := huses.shared rfl
  have hquiet : usesFrameIn f.code = false := hown.functions f (Array.mem_of_getElem? hf)
  have hget' : q.functions.getD fn default = f := by
    rw [Array.getD_eq_getD_getElem?, hf]
    rfl
  have hget : q.trim.functions.getD fn default = f.trim := by
    rw [Array.getD_eq_getD_getElem?, ProgramCode.trim, Array.getElem?_map, hf]
    rfl
  refine .together ?_
  rw [trimAll_leaf rfl]
  simp only [step, execute, hget', hget]
  refine .calls rfl rfl ⟨rfl, .entering hcode ?_ rfl rfl, ?_⟩
  · exact ⟨⟨⟨[], (List.append_nil _).symm, .done⟩, .of_false hquiet⟩, ⟨rfl, rfl, rfl⟩⟩
  · exact .call (htrims.goOn hrest) hframed hcallers

end

theorem moves_entering (hcallers : Callers entry' entry es' es ws' ws)
    (hpair : Pair [] ⟨.entry d .rootSave [] :: rest, ks', regs, base, dst⟩ ⟨body, ks, regs, base, dst⟩)
    (hr : s.memory.roots = entry) :
    Moves q entry' entry es' es ⟨s.withRoots entry', ⟨.entry d .rootSave [] :: rest, ks', regs, base, dst⟩, ws'⟩
      ⟨s, ⟨body, ks, regs, base, dst⟩, ws⟩ := by
  obtain ⟨⟨⟨tail, hcode, htrims⟩, hserves⟩, -⟩ := hpair
  obtain ⟨flags, hpadded⟩ := hcallers.padded
  subst hcode
  refine .together (next_roots (q := q) entry'.save s.memory.roots.save hcallers htrims ⟨?_, ?_, ?_⟩
    (Serves.cons_iff.mp hserves).2 rfl rfl)
  · rw [hr]
    exact hpadded.save
  · exact Array.size_push _
  · rw [hr]
    exact Array.size_push _

theorem moves_leaving (hcallers : Callers entry' entry es' es ws' ws) (hleaving : Leaving code)
    (hr' : r' = entry'.extend new) (hr : s.memory.roots = entry.extend new) :
    Moves q entry' entry es' es ⟨s.withRoots r', ⟨code, ks', regs, base, dst⟩, ws'⟩
      ⟨s, ⟨trimAll code ++ tail, ks, regs, base, dst⟩, ws⟩ := by
  refine .together ?_
  cases hleaving with
  | @constant d v is hrest =>
    exact .stays rfl rfl ⟨rfl, .leaving new hrest rfl ⟨rfl, rfl, rfl⟩ hr' hr, hcallers⟩
  | @entry d e args is he hrest =>
    show Next _ _ _ _ _ _ (execute q (s.withRoots r') ws' ⟨is, ks', regs, base, dst⟩ (.entry d e args))
      (execute q.trim s ws ⟨trimAll is ++ tail, ks, regs, base, dst⟩ (.entry d e args))
    obtain ⟨flags, hpadded⟩ := hcallers.padded
    rcases he with hordinary | rfl
    · have hagrees : r'.Agrees s.memory.roots := by
        rw [hr', hr]
        exact ⟨hpadded.agrees.named, congrArg (· ++ new.toArray) hpadded.agrees.temps⟩
      obtain ⟨t, regs', more, hroots, -, hstep', hstep⟩ := execute_ordinary q d args hordinary hagrees regs base dst
      have happend : ∀ r : Roots, (r.extend new).extend more = r.extend (new ++ more) := fun r => by
        simp [Roots.extend]
      rw [hstep', hstep]
      refine .stays rfl rfl ⟨rfl, .leaving (new ++ more) hrest rfl ⟨rfl, rfl, rfl⟩ ?_ ?_, hcallers⟩
      · show r'.extend more = _
        rw [hr', happend]
      · rw [hroots, hr, happend]
    · have hadd : ∀ p : Pointer, ∃ more, ∀ r : Roots, (r.extend new).addTemp p = r.extend (new ++ more) := by
        intro p
        by_cases hp : p = .null
        · exact ⟨[], fun r => by simp [Roots.addTemp, hp]⟩
        · exact ⟨[p], fun r => Roots.extend_addTemp hp⟩
      obtain ⟨more, hmore⟩ := hadd (argument (args.map fun r => regs.getD r .zero) 0).pointer
      refine .stays rfl rfl ⟨rfl, .leaving (new ++ more) hrest rfl ⟨rfl, rfl, rfl⟩ ?_ ?_, hcallers⟩
      · rw [← hmore, ← hr']
        rfl
      · rw [← hmore, ← hr]
        rfl
  | @ret r is =>
    cases r with
    | none | some => exact hcallers.leave new ⟨rfl, rfl, rfl⟩ hr' hr _

end Bodies

/-! ### Whole runs -/

section Runs

variable {entry : Roots}

theorem Parallel.moves (hp' : ProgramOk c' cells' q) (hown : q.OwnFrames)
    (horder' : InOrder c' cells' (entry' :: es') m') (horder : InOrder c cells (entry :: es) m)
    (hroom : ∀ n', step q m' = .running n' → n'.session.abort ≠ some (.roots .overflow))
    (h : Parallel entry' entry es' es m' m) : Moves q entry' entry es' es m' m := by
  obtain ⟨s', ⟨code', ks', regs', base', dst'⟩, ws'⟩ := m'
  obtain ⟨s, ⟨code, ks, regs, base, dst⟩, ws⟩ := m
  obtain ⟨hsession, hstanding, hcallers⟩ := h
  generalize hr' : s'.memory.roots = r' at hsession hstanding
  obtain rfl : s' = s.withRoots r' := hsession
  cases hstanding with
  | entering hcode hpair hr' hr =>
    obtain ⟨rfl, rfl, rfl⟩ := hpair.toAlongside
    cases hcode
    subst hr'
    exact moves_entering hcallers hpair hr
  | leaving new hleaving hcode ha hr' hr =>
    obtain ⟨rfl, rfl, rfl⟩ := ha
    cases hcode
    exact moves_leaving hcallers hleaving hr' hr
  | body hpair hframed =>
    obtain ⟨⟨⟨tail, hcode, htrims⟩, hserves⟩, ⟨rfl, rfl, rfl⟩⟩ := hpair
    cases hcode
    have hin' := inside horder' hframed.kept
    have hin := inside horder hframed.trimmed
    cases code' with
    | nil =>
      cases ks' with
      | nil => exact absurd rfl (hin'.goesOn rfl)
      | cons k ks' => exact moves_resume hcallers htrims hframed
    | cons i rest =>
      obtain ⟨huses, hrest⟩ := Serves.cons_iff.mp hserves
      cases i with
      | constant | unary | binary | element | load | store | address =>
        exact moves_plain hcallers htrims hframed hrest rfl
      | ifThen | countLoop | whileLoop | foreverLoop =>
        exact moves_control hcallers htrims hframed huses hrest rfl
      | entry d e args => exact moves_entry hcallers htrims hframed huses hrest hin' hin
      | call d fn args => exact moves_call hcallers htrims hframed hp' hown huses hrest hin'
      | poll => exact moves_poll hcallers htrims hframed hrest hin' hin
      | ret r => exact (hin'.not_ret rfl).elim
      | rooted body => exact moves_rooted hcallers htrims hframed hrest (hroom _ rfl)

structure Together (c' c : Rules) (cells' cells : List Bool) (m' m : Machine) : Prop where
  orders : ∃ entry' entry es' es, InOrder c' cells' (entry' :: es') m' ∧ InOrder c cells (entry :: es) m ∧
    Parallel entry' entry es' es m' m

def Roomy (q : ProgramCode) (m : Machine) : Prop :=
  ∀ k n, Machine.advance q .idle m k = .running n → n.session.abort ≠ some (.roots .overflow)

theorem Roomy.step (h : Roomy q m) (hn : step q m = .running n) : Roomy q n := by
  intro k x hx
  have hone : advance q .idle m 1 = .running n := hn
  exact h (1 + k) x ((advance_idle_add hone).trans hx)

theorem Together.step (hp' : ProgramOk c' cells' q) (hp : ProgramOk c cells q.trim) (hown : q.OwnFrames)
    (hroomy : Roomy q m') (h : Together c' c cells' cells m' m) :
    (∃ n', Machine.step q m' = .running n' ∧ Together c' c cells' cells n' m ∧
        n'.active.frameSteps < m'.active.frameSteps) ∨
      (∃ n' n, Machine.step q m' = .running n' ∧ Machine.step q.trim m = .running n ∧
        Together c' c cells' cells n' n) ∨
      ∃ t, Machine.step q m' = .finished t ∧ Machine.step q.trim m = .finished t := by
  obtain ⟨entry', entry, es', es, horder', horder, hparallel⟩ := h.orders
  cases hparallel.moves hp' hown horder' horder fun n' hn' => hroomy 1 n' hn' with
  | alone n' hstep hwaiting hnext hless =>
    exact Or.inl ⟨_, hstep, ⟨_, _, _, _, (inOrder_next hp' horder' hstep).1 hwaiting, horder, hnext⟩, hless⟩
  | together hnext =>
    refine Or.inr ?_
    generalize hstep' : Machine.step q m' = x' at hnext
    generalize hstep : Machine.step q.trim m = x at hnext
    cases hnext with
    | stays hw' hw hnext =>
      exact Or.inl ⟨_, _, rfl, rfl,
        ⟨_, _, _, _, (inOrder_next hp' horder' hstep').1 hw', (inOrder_next hp horder hstep).1 hw, hnext⟩⟩
    | calls hw' hw hnext =>
      exact Or.inl ⟨_, _, rfl, rfl,
        ⟨_, _, _, _, (inOrder_next hp' horder' hstep').2.1 _ hw', (inOrder_next hp horder hstep).2.1 _ hw, hnext⟩⟩
    | returns hw' hw hes' hes hnext =>
      subst hes' hes
      exact Or.inl ⟨_, _, rfl, rfl,
        ⟨_, _, _, _, (inOrder_next hp' horder' hstep').2.2 _ hw', (inOrder_next hp horder hstep).2.2 _ hw, hnext⟩⟩
    | finishes => exact Or.inr ⟨_, rfl, rfl⟩

theorem Together.run_trimmed (hp' : ProgramOk c' cells' q) (hp : ProgramOk c cells q.trim) (hown : q.OwnFrames)
    (hroomy : Roomy q m') (h : Together c' c cells' cells m' m) (hrun : run q fuel m' = some t) :
    ∃ n, run q.trim n m = some t := by
  induction fuel generalizing m' m with
  | zero => cases hrun
  | succ fuel ih =>
    rcases h.step hp' hp hown hroomy with ⟨n', hstep, hnext, -⟩ | ⟨n', n, hstep', hstep, hnext⟩ | ⟨u, hstep', hstep⟩
    · rw [run, hstep] at hrun
      exact ih (hroomy.step hstep) hnext hrun
    · rw [run, hstep'] at hrun
      obtain ⟨k, hk⟩ := ih (hroomy.step hstep') hnext hrun
      refine ⟨k + 1, ?_⟩
      rw [run, hstep]
      exact hk
    · rw [run, hstep'] at hrun
      cases hrun
      refine ⟨1, ?_⟩
      rw [run, hstep]

theorem Together.run_kept (hp' : ProgramOk c' cells' q) (hp : ProgramOk c cells q.trim) (hown : q.OwnFrames)
    (hroomy : Roomy q m') (h : Together c' c cells' cells m' m) (hrun : run q.trim fuel m = some t) :
    ∃ n, run q n m' = some t := by
  induction fuel generalizing m' m with
  | zero => cases hrun
  | succ fuel ih =>
    generalize hsteps : m'.active.frameSteps = steps
    induction steps using Nat.strongRecOn generalizing m' with
    | ind steps ihsteps =>
      rcases h.step hp' hp hown hroomy with
        ⟨n', hstep, hnext, hless⟩ | ⟨n', n, hstep', hstep, hnext⟩ | ⟨u, hstep', hstep⟩
      · obtain ⟨k, hk⟩ := ihsteps _ (hsteps ▸ hless) (hroomy.step hstep) hnext rfl
        refine ⟨k + 1, ?_⟩
        rw [run, hstep]
        exact hk
      · rw [run, hstep] at hrun
        obtain ⟨k, hk⟩ := ih (hroomy.step hstep') hnext hrun
        refine ⟨k + 1, ?_⟩
        rw [run, hstep']
        exact hk
      · rw [run, hstep] at hrun
        cases hrun
        refine ⟨1, ?_⟩
        rw [run, hstep']

theorem Together.load (hp' : ProgramOk c' cells' q) (hp : ProgramOk c cells q.trim) (hown : q.OwnFrames)
    (hs : s.Fresh) : Together c' c cells' cells (load q s) (load q.trim s) := by
  obtain ⟨d, rest, hcode⟩ : ∃ d rest, q.main.code = .entry d .rootSave [] :: rest := by
    cases hp'.main with
    | framed _ _ hcode _ _ _ _ | bare _ hcode _ _ => exact ⟨_, _, hcode⟩
  obtain ⟨low, limit, hnew⟩ := hs.memory
  have hroots : s.memory.roots = {} := by
    rw [hnew]
    rfl
  refine ⟨{}, {}, [], [], InOrder.load hp' hs, InOrder.load hp hs, rfl, .entering hcode ?_ hroots hroots, .main⟩
  exact ⟨⟨⟨[], (List.append_nil _).symm, .done⟩, .of_false hown.main⟩, ⟨rfl, rfl, rfl⟩⟩

end Runs

end Trimming

/-- As long as the program with all its frames stays within the limit of open frames, it ends if and
only if the program without the idle ones does, and in the same session. -/
theorem Program.idle_frames_unseen {p : Program} (hheads : p.BareHeads) (hcode : (p.compile).result = .ok code) :
    ∃ kept, (p.compile true).result = .ok kept ∧ ∀ s : Session, s.Fresh →
      (∀ n m, Machine.advance kept .idle (Machine.load kept s) n = .running m →
        m.session.abort ≠ some (.roots .overflow)) →
      ∀ t, (∃ n, code.run s n = some t) ↔ ∃ n, kept.run s n = some t := by
  obtain ⟨kept, hkept, htrim, hown, -⟩ := Trimming.compile_kept hheads hcode
  obtain ⟨functions', cells', hp'⟩ := compile_programOk false false false hheads nofun nofun nofun hkept
  obtain ⟨functions, cells, hp⟩ := compile_programOk false false false hheads nofun nofun nofun hcode
  refine ⟨kept, hkept, fun s hs hroomy t => ?_⟩
  subst htrim
  have hboth := Trimming.Together.load hp' hp hown hs
  constructor
  · rintro ⟨n, hn⟩
    exact hboth.run_kept hp' hp hown hroomy hn
  · rintro ⟨n, hn⟩
    exact hboth.run_trimmed hp' hp hown hroomy hn

/-- Prints the same text three times: the body of its loop roots nothing. -/
def Program.chatter : Program where
  chains := [⟨[.mk "on_start" [], .mk "repeat" [.text "3"], .mk "print" [.text "hi"], .mk "end" []]⟩]
  blockdefs := []

theorem Program.bareHeads_chatter : chatter.BareHeads := by
  intro c hc b hb hid
  obtain rfl := List.mem_singleton.mp hc
  cases hb
  exact absurd hid (by decide)

/-- With its idle frames the program takes longer and comes to the same end. -/
theorem Program.idle_frames_unseen_chatter : chatter.BareHeads ∧ ∃ code kept t, (chatter.compile).result = .ok code ∧
      (chatter.compile true).result = .ok kept ∧ code.run { memory := .new 100 10000 } 25 = some t ∧
      kept.run { memory := .new 100 10000 } 25 = none ∧
      ∃ n, kept.run { memory := .new 100 10000 } n = some t := by
  refine ⟨bareHeads_chatter, ?_⟩
  obtain ⟨code, hcode, hends⟩ := chatter.exists_code false
    (fun code => (code.run { memory := .new 100 10000 } 25).isSome) (by decide +kernel)
  obtain ⟨t, hrun⟩ := Option.isSome_iff_exists.mp hends
  obtain ⟨kept, hkept, hboth⟩ := chatter.exists_code true
    (fun kept => (kept.run { memory := .new 100 10000 } 25).isNone &&
      (kept.run { memory := .new 100 10000 } 60).any (·.abort.isNone)) (by decide +kernel)
  simp only [Bool.and_eq_true, Option.isNone_iff_eq_none, Option.any_eq_true] at hboth
  obtain ⟨hlong, u, hlast, hends⟩ := hboth
  obtain ⟨kept', hkept', hsame⟩ := idle_frames_unseen bareHeads_chatter hcode
  obtain rfl : kept' = kept := Except.ok.inj (hkept'.symm.trans hkept)
  refine ⟨code, kept', t, hcode, hkept, hrun, hlong, ?_⟩
  refine (hsame { memory := .new 100 10000 } ⟨⟨_, _, rfl⟩, rfl⟩ (fun n m hm hover => ?_) t).mp ⟨25, hrun⟩
  have hfatal := Machine.abort_finished hm hover (Machine.run_eq_some_iff.mp hlast)
  rw [hends] at hfatal
  cases hfatal

end Blockwork
