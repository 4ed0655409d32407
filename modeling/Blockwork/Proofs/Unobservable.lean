import Blockwork.Proofs.Alike
import Blockwork.Proofs.Cancellation
import Mathlib

/-! # Collections cannot be observed
Two runs of a program with different limits of memory collect at different times. -/

namespace Blockwork

/-! ### Steps -/

/-- Machines at the same place, with the same registers and sessions that are alike. -/
structure Machine.Alike (m m' : Machine) : Prop where
  active : m'.active = m.active
  waiting : m'.waiting = m.waiting
  session : m.session.Alike m'.session

inductive Progress.Alike : Progress → Progress → Prop where
  | running : m.Alike m' → Alike (.running m) (.running m')
  | finished : s.Alike s' → Alike (.finished s) (.finished s')

/-- An allocation of the next instruction is refused: it would be recorded, were no fatal condition
pending. -/
def Machine.Refuses (m : Machine) : Prop :=
  ∃ d e args rest x, m.active.code = .entry d e args :: rest ∧
    (e.run (args.map m.active.get) m.session.unaborted).2.abort = some (.outOfMemory x)

namespace Session.Alike

theorem withSlots (h : Alike s s') (f : Array Value → Array Value) :
    Alike { s with memory := { s.memory with slots := f s.memory.slots } }
      { s' with memory := { s'.memory with slots := f s'.memory.slots } } :=
  ⟨⟨h.terminal, h.input, h.stop, h.abort⟩, h.memory.withSlots f⟩

theorem addSlots (h : Alike s s') (n : Nat) : Alike (Machine.addSlots s n) (Machine.addSlots s' n) :=
  h.withSlots fun slots => slots ++ Array.replicate n Value.zero

theorem goOn (h : Alike s s') (ws : List Activation) (a : Activation) :
    Progress.Alike (Machine.goOn s ws a) (Machine.goOn s' ws a) :=
  .running ⟨rfl, rfl, h⟩

theorem leave (h : Alike s s') (ws : List Activation) (a : Activation) (v : Value) :
    Progress.Alike (Machine.leave s ws a v) (Machine.leave s' ws a v) := by
  have hcut := h.withSlots (·.shrink a.base)
  cases ws with
  | nil => exact .finished hcut
  | cons caller ws => exact .running ⟨rfl, rfl, hcut⟩

theorem resume (h : Alike s s') (ws : List Activation) (a : Activation) (k : Kont) :
    Progress.Alike (Machine.resume s ws a k) (Machine.resume s' ws a k) := by
  cases k with
  | next rest => exact h.goOn ws _
  | closeRoots rest => exact (h.onRoots Roots.closeFrame).goOn ws _
  | countLoop left body rest => exact h.goOn ws _
  | whileTest test cond body rest =>
    simp only [Machine.resume]
    split
    · exact h.goOn ws _
    · exact h.goOn ws _
  | whileBody | foreverLoop => exact h.goOn ws _

theorem execute (h : Alike s s') (p : ProgramCode) (ws : List Activation) (a : Activation)
    (hentry : ∀ d e args, i = .entry d e args → (e.run (args.map a.get) s').1 = (e.run (args.map a.get) s).1 ∧
      Alike (e.run (args.map a.get) s).2 (e.run (args.map a.get) s').2)
    (helement : ∀ d r, i = .element d r → s'.elementOf (a.get r) = s.elementOf (a.get r)) :
    Progress.Alike (Machine.execute p s ws a i) (Machine.execute p s' ws a i) := by
  cases i with
  | constant | unary | binary => exact h.goOn ws _
  | element d r =>
    simp only [Machine.execute, helement d r rfl]
    exact h.goOn ws _
  | load d ty pl =>
    simp only [Machine.execute, h.memory.slot]
    exact h.goOn ws _
  | store pl r => exact (h.withSlots fun slots => slots.setIfInBounds (a.place pl) (a.get r)).goOn ws a
  | address d pl => exact h.goOn ws _
  | entry d e args =>
    obtain ⟨hvalue, hafter⟩ := hentry d e args rfl
    simp only [Machine.execute, hvalue]
    exact hafter.goOn ws _
  | call d f args =>
    simp only [Machine.execute, h.memory.slots]
    exact (h.addSlots _).goOn _ _
  | poll =>
    simp only [Machine.execute, h.shouldExit]
    split
    · exact (h.onRoots Roots.restore).leave ws a _
    · exact h.goOn ws a
  | ret r =>
    cases r with
    | none | some => exact h.leave ws a _
  | rooted body => exact (h.onRoots Roots.openFrame).goOn ws _
  | ifThen cond body =>
    simp only [Machine.execute]
    split
    · exact h.goOn ws _
    · exact h.goOn ws _
  | countLoop | whileLoop | foreverLoop => exact h.goOn ws _

end Session.Alike

namespace Flow

theorem InOrder.isChance (hc : c.steady = true) (h : InOrder c cells es m)
    (hcode : m.active.code = .entry d e args :: rest) : e.isChance = false := by
  cases h with
  | @intro σ s a ws es n hrules hcells hdoing hwaits habort =>
    have hsteady : σ.rules.steady = true := by
      rw [hrules]
      exact hc
    have hnow : a.code = .entry d e args :: rest := hcode
    cases hdoing with
    | entering hfn hfirst _ _ _ _ =>
      cases hfn with
      | framed _ _ hfncode _ _ _ _ | bare _ hfncode _ _ =>
        cases hcode.symm.trans (hfirst.trans hfncode)
        rfl
    | pending _ hpending _ _ _ _ _ _ _ => cases hcode.symm.trans hpending
    | running hruns =>
      obtain ⟨-, hflow, -⟩ := hruns
      rw [hnow] at hflow
      obtain ⟨g, -, hhead⟩ := hflow.head
      cases hhead with
      | leave _ _ _ => rfl
      | step hstep _ =>
        cases hstep with
        | flush | register => rfl
        | entry _ _ _ _ hchance _ => exact hchance hsteady
    | closing _ hclosing _ _ _ _ _ =>
      cases hcode.symm.trans hclosing
      rfl
    | leaving hflow _ _ _ =>
      rw [hnow] at hflow
      rcases hflow.left_cases with ⟨st', hexit, -⟩ | ⟨hret, -⟩ | ⟨r, hret, -⟩
      · cases hexit with
        | nothing _ => rfl
        | scalar _ he _ => rcases he with rfl | rfl | rfl | rfl <;> rfl
        | hand | literal => rfl
        | boxHanded _ he => rcases he with rfl | rfl <;> rfl
        | boxMade _ => rfl
      · cases hret
      · cases hret

theorem InOrder.alike_step (hc : c.Careful) (hsteady : c.steady = true) (hm : InOrder c cells es m)
    (hm' : InOrder c cells es' m') (h : m.Alike m') (hgrant : ¬ m.Refuses) (hgrant' : ¬ m'.Refuses) :
    Progress.Alike (Machine.step p m) (Machine.step p m') := by
  obtain ⟨s, a, ws⟩ := m
  obtain ⟨s', a', ws'⟩ := m'
  obtain ⟨hactive, hwaiting, hsession⟩ := h
  obtain rfl : a' = a := hactive
  obtain rfl : ws' = ws := hwaiting
  have hsound := hm.sound hc
  have hsound' := hm'.sound hc
  obtain ⟨code, konts, regs, base, dst⟩ := a'
  cases code with
  | nil =>
    cases konts with
    | nil => exact hsession.leave ws' _ _
    | cons k konts => exact hsession.resume ws' _ k
  | cons i code =>
    refine hsession.execute p ws' _ (fun d e args hi => ?_) fun d r hi => ?_
    · subst hi
      exact Entry.alike (hm.isChance hsteady rfl) hsession hsound hsound' (hm.prepared hc rfl)
        (hm'.prepared hc rfl) (fun x hx => hgrant ⟨d, e, args, code, x, rfl, hx⟩)
        fun x hx => hgrant' ⟨d, e, args, code, x, rfl, hx⟩
    · subst hi
      have hsafe := (Memory.Held.pointer (hm.element_held hc rfl)).safe (.refl _)
      have hsafe' := (Memory.Held.pointer (hm'.element_held hc rfl)).safe (.refl _)
      exact (hsession.memory.readsAs hsound hsound' (hsafe.live hsound) (hsafe'.live hsound')).elementOf

theorem ProgramOk.alike_runs (hc : c.Careful) (hsteady : c.steady = true) (hp : ProgramOk c cells p) (hs : s.Fresh)
    (hs' : s'.Fresh) (hbeside : s.Beside s')
    (hgrant : ∀ n m, Machine.advance p .idle (Machine.load p s) n = .running m → ¬ m.Refuses)
    (hgrant' : ∀ n m, Machine.advance p .idle (Machine.load p s') n = .running m → ¬ m.Refuses) (n : Nat) :
    Progress.Alike (Machine.advance p .idle (Machine.load p s) n)
      (Machine.advance p .idle (Machine.load p s') n) := by
  induction n with
  | zero =>
    have hmemory : s.memory.Alike s'.memory := by
      obtain ⟨low, limit, hnew⟩ := hs.memory
      obtain ⟨low', limit', hnew'⟩ := hs'.memory
      rw [hnew, hnew']
      exact .new low limit low' limit'
    have hsession : s.Alike s' := ⟨hbeside, hmemory⟩
    exact .running ⟨rfl, rfl, hsession.addSlots _⟩
  | succ n ih =>
    cases hone : Machine.advance p .idle (Machine.load p s) n with
    | running m =>
      cases hother : Machine.advance p .idle (Machine.load p s') n with
      | running m' =>
        rw [hone, hother] at ih
        cases ih with
        | running halike =>
          obtain ⟨entry, es, horder⟩ := hp.inOrder hs hone
          obtain ⟨entry', es', horder'⟩ := hp.inOrder hs' hother
          rw [Machine.advance_succ hone, Machine.advance_succ hother]
          exact horder.alike_step hc hsteady horder' halike (hgrant n m hone) (hgrant' n m' hother)
      | finished t' =>
        rw [hone, hother] at ih
        cases ih
    | finished t =>
      cases hother : Machine.advance p .idle (Machine.load p s') n with
      | running m' =>
        rw [hone, hother] at ih
        cases ih
      | finished t' =>
        rw [hone, hother] at ih
        cases ih with
        | finished halike =>
          rw [Machine.advance_succ_finished hone, Machine.advance_succ_finished hother]
          exact .finished halike

end Flow

/-- A refused allocation is not recorded, as another fatal condition is pending. -/
def Machine.HidesRefusal (m : Machine) : Prop :=
  m.session.abort ≠ none ∧ m.Refuses

namespace Machine

theorem not_refuses (hm : advance p .idle m₀ n = .running m) (ht : advance p .idle m₀ k = .finished t)
    (hend : ∀ x, t.result ≠ .failure (.outOfMemory x)) (hhides : ¬ m.HidesRefusal) : ¬ m.Refuses := by
  intro hrefuses
  by_cases habort : m.session.abort = none
  · obtain ⟨d, e, args, rest, x, hcode, hx⟩ := hrefuses
    have hsame : m.session.unaborted = m.session := by
      unfold Session.unaborted
      rw [← habort]
    rw [hsame] at hx
    obtain ⟨s, ⟨code, konts, regs, base, dst⟩, ws⟩ := m
    obtain rfl : code = _ := hcode
    have hnext := advance_succ hm
    have hrecorded : t.abort = some (.outOfMemory x) := abort_finished hnext hx ht
    refine hend x ?_
    unfold Session.result
    rw [hrecorded]
  · exact hhides ⟨habort, hrefuses⟩

theorem not_hides (hm : advance p .idle m₀ n = .running m) (ht : run p k m₀ = some t)
    (hend : t.result = .success) : ¬ m.HidesRefusal := by
  rintro ⟨habort, -⟩
  obtain ⟨e, he⟩ := Option.ne_none_iff_exists'.mp habort
  have hlast := abort_finished hm he (run_eq_some_iff.mp ht)
  rw [Session.result, hlast] at hend
  cases hend

end Machine

namespace Program

/-- A compiled program that asks for neither chance nor time shows the same, ends in the same way and
leaves as many root frames behind whatever the limits of memory are, if it runs to its end without a
refused allocation: one that is recorded, or one that another fatal condition hides. -/
theorem collector_unobservable {p : Program}
    (hheads : p.BareHeads) (hassigns : p.AssignsInStatements) (hsteady : p.Steady)
    (hcode : (p.compile keep).result = .ok code) (hcells : code.CellsOfMain) (hs : s.Fresh) (hs' : s'.Fresh)
    (hbeside : s.Beside s') (hrun : code.run s fuel = some t) (hrun' : code.run s' fuel' = some t')
    (hend : ∀ x, t.result ≠ .failure (.outOfMemory x)) (hend' : ∀ x, t'.result ≠ .failure (.outOfMemory x))
    (hhides : ∀ n m, Machine.advance code .idle (Machine.load code s) n = .running m → ¬ m.HidesRefusal)
    (hhides' : ∀ n m, Machine.advance code .idle (Machine.load code s') n = .running m → ¬ m.HidesRefusal) :
    t'.terminal = t.terminal ∧ t'.result = t.result ∧ t'.memory.roots.depth = t.memory.roots.depth := by
  obtain ⟨functions, cells, hok⟩ :=
    Flow.compile_programOk true true false hheads (fun _ => hassigns) (fun _ => hsteady) nofun hcode
  have hfinish := Machine.run_eq_some_iff.mp hrun
  have hfinish' := Machine.run_eq_some_iff.mp hrun'
  have halike := (hok.sealed hcells).alike_runs ⟨rfl, rfl⟩ rfl hs hs' hbeside
    (fun n m hm => Machine.not_refuses hm hfinish hend (hhides n m hm))
    (fun n m hm => Machine.not_refuses hm hfinish' hend' (hhides' n m hm)) (fuel + fuel')
  rw [Machine.advance_finished_add hfinish fuel', Nat.add_comm fuel fuel',
    Machine.advance_finished_add hfinish' fuel] at halike
  cases halike with
  | finished hlast =>
    refine ⟨hlast.terminal, ?_, by rw [hlast.memory.roots]⟩
    unfold Session.result
    rw [hlast.abort, hlast.stop]

theorem steady_countdown : countdown.Steady := by
  show ∀ c ∈ countdown.chains, ∀ b ∈ c.blocks, "random" ∉ b.names ∧ "unix_time" ∉ b.names
  decide

/-- One run collects and the other does not, at another time and with other chances. -/
theorem collector_unobservable_countdown : countdown.BareHeads ∧ countdown.AssignsInStatements ∧ countdown.Steady ∧
      ∃ code t t', (countdown.compile false).result = .ok code ∧ code.CellsOfMain ∧
        code.run { memory := .new 40 10000 } 300 = some t ∧
        code.run { memory := .new 5000 10000, entropy := 7, clock := 1 } 300 = some t' ∧
        t.result = .success ∧ t'.result = .success ∧
        t.memory.heap.collections = 1 ∧ t'.memory.heap.collections = 0 ∧
        t'.terminal = t.terminal ∧ t'.memory.roots.depth = t.memory.roots.depth := by
  refine ⟨bareHeads_countdown, assignsInStatements_countdown, steady_countdown, ?_⟩
  have heval : (countdown.compile false).result.toOption.any (fun code =>
      decide code.CellsOfMain && (code.run { memory := .new 40 10000 } 300).any (fun t =>
        decide (t.result = .success ∧ t.memory.heap.collections = 1)) &&
      (code.run { memory := .new 5000 10000, entropy := 7, clock := 1 } 300).any fun t =>
        decide (t.result = .success ∧ t.memory.heap.collections = 0)) = true := by
    decide_cbv
  obtain ⟨code, hcode, hboth⟩ := countdown.exists_code false _ heval
  simp only [Bool.and_eq_true, decide_eq_true_eq, Option.any_eq_true] at hboth
  obtain ⟨⟨hcells, t, hrun, hend, hcount⟩, t', hrun', hend', hcount'⟩ := hboth
  have hno : ∀ {t : Session}, t.result = .success → ∀ x, t.result ≠ .failure (.outOfMemory x) := by
    intro t ht x hx
    cases ht.symm.trans hx
  have hbeside : Session.Beside { memory := .new 40 10000 }
      { memory := .new 5000 10000, entropy := 7, clock := 1 } := ⟨rfl, rfl, rfl, rfl⟩
  have hsame := collector_unobservable bareHeads_countdown assignsInStatements_countdown steady_countdown hcode
    hcells ⟨⟨_, _, rfl⟩, rfl⟩ ⟨⟨_, _, rfl⟩, rfl⟩ hbeside hrun hrun' (hno hend) (hno hend')
    (fun n m hm => Machine.not_hides hm hrun hend) fun n m hm => Machine.not_hides hm hrun' hend'
  exact ⟨code, t, t', hcode, hcells, hrun, hrun', hend, hend', hcount, hcount', hsame.1, hsame.2.2⟩

end Program

/-! ### Hidden refusals -/

namespace Machine

theorem terminal_onRoots (s : Session) (f : Roots → Option RootError × Roots) :
    (s.onRoots f).terminal = s.terminal := by
  unfold Session.onRoots Session.check Session.fail
  dsimp only
  split
  · split <;> rfl
  · rfl

theorem step_poll (habort : s.abort = some e) (hcode : a.code.head? = some .poll) :
    step p ⟨s, a, ws⟩ = leave s.rootRestore ws { a with code := a.code.tail } nothingResult := by
  obtain ⟨code, konts, regs, base, dst⟩ := a
  obtain ⟨rest, rfl⟩ := List.head?_eq_some_iff.mp hcode
  have hexit : s.shouldExit = true := by simp [Session.shouldExit, habort]
  simp only [step, execute, hexit, if_true, List.tail_cons]

theorem unwinds (habort : m.session.abort = some e) (hactive : m.active.code.head? = some .poll)
    (hwaiting : ∀ w ∈ m.waiting, w.code.head? = some .poll) :
    ∃ n t, advance p .idle m n = .finished t ∧ t.terminal = m.session.terminal ∧ t.abort = some e := by
  obtain ⟨s, a, ws⟩ := m
  induction ws generalizing s a with
  | nil =>
    exact ⟨1, _, step_poll habort hactive, terminal_onRoots s _, (Session.recalls_rootRestore s).abort e habort⟩
  | cons w ws ih =>
    let s' : Session := { s.rootRestore with
      memory := { s.rootRestore.memory with slots := s.rootRestore.memory.slots.shrink a.base } }
    have hone : advance p .idle ⟨s, a, w :: ws⟩ 1 = .running ⟨s', w.set a.dst nothingResult, ws⟩ :=
      step_poll habort hactive
    have hterminal : s'.terminal = s.terminal := terminal_onRoots s _
    obtain ⟨n, t, hn, ht, he⟩ := ih s' (w.set a.dst nothingResult)
      ((Session.recalls_rootRestore s).abort e habort) (hwaiting w List.mem_cons_self)
      fun v hv => hwaiting v (List.mem_cons_of_mem w hv)
    exact ⟨1 + n, t, (advance_idle_add hone).trans hn, ht.trans hterminal, he⟩

end Machine

namespace Program

/-- Calls itself until too many root frames are open, and only then, before it asks whether to leave,
makes a string and prints it. -/
def sinking : Program where
  chains :=
    [⟨[.mk "on_start" [], .mk "f" []]⟩, ⟨[.definition "f", .mk "do_nothing" [],
       .mk "if" [.block (.mk "not" [.block (.mk "sleep" [.text "1"])])],
       .mk "print" [.block (.mk "chr" [.text "120"])],
       .mk "end" [],
       .mk "f" [],
       .mk "end" []]⟩]
  blockdefs := [⟨"f", []⟩]

namespace Sinking

open Machine Session Roots

def shows : List Instr :=
  [.constant 5 (.integer 120), .entry 6 .stringChr [5], .entry 7 .printString [6], .entry 8 .flush [], .poll, .poll]

def deepens : List Instr :=
  [.constant 1 (.integer 1), .entry 2 .sleep [1], .unary 3 .isNonzero 2, .unary 4 .not 3,
   .ifThen 4 [.rooted shows], .call 9 0 [], .poll, .entry 10 .flush [], .poll, .poll]

def block : FunctionCode where
  registers := 13
  slots := 0
  code :=
    [.entry 0 .rootSave [], .poll, .rooted deepens, .entry 11 .rootRestore [], .entry 12 .anyNothing [],
     .ret (some 12)]

def code : ProgramCode where
  main :=
    { registers := 4
      slots := 0
      code :=
        [.entry 0 .rootSave [], .rooted [.call 1 0 [], .poll, .entry 2 .flush [], .poll],
         .entry 3 .rootRestore [], .ret none] }
  functions := #[block]
  cells := 0

theorem compile_eq : (sinking.compile false).result = .ok code := by
  cbv

/-- The machine where the block is entered: nothing has been shown, and all that is left to do by those
who wait is to ask whether to leave. -/
structure Entered (heap : Heap) (depth : Nat) (m : Machine) : Prop where
  session : ∃ roots, m.session = { memory := ⟨heap, roots, #[]⟩ } ∧ roots.depth = depth
  active : ∃ d, m.active = start block [] 0 d
  waiting : ∀ w ∈ m.waiting, w.code.head? = some .poll

variable {depth : Nat}

theorem Entered.deeper (h : Entered heap depth m) (hroom : depth < maxRootDepth) :
    ∃ n m', advance code .idle m n = .running m' ∧ Entered heap (depth + 1) m' := by
  obtain ⟨s, a, ws⟩ := m
  obtain ⟨⟨roots, hs, rfl⟩, ⟨d, ha⟩, hws⟩ := h
  obtain rfl : s = _ := hs
  obtain rfl : a = _ := ha
  have hopen : ¬ roots.save.openFrame.2.depth > maxRootDepth := by
    simp only [openFrame, save, depth, Array.size_push] at hroom ⊢
    omega
  have hframe : roots.save.openFrame = (none, roots.save.openFrame.2) := by
    simp only [openFrame] at hopen ⊢
    rw [if_neg hopen]
  have hbegin : rootBegin { memory := ⟨heap, roots.save, #[]⟩ } =
      { memory := ⟨heap, roots.save.openFrame.2, #[]⟩ } := by
    unfold rootBegin onRoots
    dsimp only
    rw [hframe]
    rfl
  have hthree : advance code .idle ⟨{ memory := ⟨heap, roots, #[]⟩ }, start block [] 0 d, ws⟩ 3 =
      .running ⟨rootBegin { memory := ⟨heap, roots.save, #[]⟩ },
        ⟨deepens, [.closeRoots (block.code.drop 3)], (start block [] 0 d).regs, 0, d⟩, ws⟩ := rfl
  rw [hbegin] at hthree
  refine ⟨9, _, (advance_idle_add hthree (n := 6)).trans rfl, ⟨roots.save.openFrame.2, rfl, ?_⟩, ⟨9, rfl⟩, ?_⟩
  · simp [openFrame, save, depth]
  · intro w hw
    rcases List.mem_cons.mp hw with rfl | hw
    · rfl
    · exact hws w hw

theorem entered (heap : Heap) (depth : Nat) (hdepth : depth < maxRootDepth) :
    ∃ n m, advance code .idle (load code { memory := ⟨heap, {}, #[]⟩ }) n = .running m ∧
      Entered heap (depth + 1) m := by
  induction depth with
  | zero =>
    refine ⟨3, _, rfl, ⟨_, rfl, rfl⟩, ⟨1, rfl⟩, ?_⟩
    intro w hw
    rcases List.mem_singleton.mp hw with rfl
    rfl
  | succ depth ih =>
    obtain ⟨n, m, hm, hentered⟩ := ih (by omega)
    obtain ⟨k, m', hm', hnext⟩ := hentered.deeper hdepth
    exact ⟨n + k, m', (advance_idle_add hm).trans hm', hnext⟩

def overflowed (heap : Heap) (roots : Roots) : Session :=
  { memory := ⟨heap, roots, #[]⟩, abort := some (.roots .overflow) }

def lastRegs : Array Value :=
  #[.zero, .integer 1, .integer 0, .bool false, .bool true] ++ Array.replicate 8 .zero

theorem Entered.last (h : Entered heap maxRootDepth m) : ∃ n roots konts d, advance code .idle m n =
      .running ⟨overflowed heap roots, ⟨shows, konts, lastRegs, 0, d⟩, m.waiting⟩ := by
  obtain ⟨s, a, ws⟩ := m
  obtain ⟨⟨roots, hs, hdepth⟩, ⟨d, ha⟩, -⟩ := h
  obtain rfl : s = _ := hs
  obtain rfl : a = _ := ha
  have hopen : roots.save.openFrame.2.depth > maxRootDepth := by
    simp only [openFrame, save, depth, Array.size_push] at hdepth ⊢
    omega
  have hframe : roots.save.openFrame = (some .overflow, roots.save.openFrame.2) := by
    simp only [openFrame] at hopen ⊢
    rw [if_pos hopen]
  have hbegin : rootBegin { memory := ⟨heap, roots.save, #[]⟩ } = overflowed heap roots.save.openFrame.2 := by
    unfold rootBegin onRoots
    dsimp only
    rw [hframe]
    rfl
  have hagain : ∀ r, (overflowed heap r).rootBegin = overflowed heap r.openFrame.2 := by
    intro r
    unfold rootBegin onRoots check
    simp only [overflowed]
    split <;> rfl
  have hthree : advance code .idle ⟨{ memory := ⟨heap, roots, #[]⟩ }, start block [] 0 d, ws⟩ 3 =
      .running ⟨rootBegin { memory := ⟨heap, roots.save, #[]⟩ },
        ⟨deepens, [.closeRoots (block.code.drop 3)], (start block [] 0 d).regs, 0, d⟩, ws⟩ := rfl
  rw [hbegin] at hthree
  have hsix : ∃ konts, advance code .idle ⟨{ memory := ⟨heap, roots, #[]⟩ }, start block [] 0 d, ws⟩ (3 + 6) =
      .running ⟨(overflowed heap roots.save.openFrame.2).rootBegin, ⟨shows, konts, lastRegs, 0, d⟩, ws⟩ :=
    ⟨_, (advance_idle_add hthree).trans rfl⟩
  obtain ⟨konts, hsix⟩ := hsix
  rw [hagain] at hsix
  exact ⟨_, _, konts, d, hsix⟩

theorem shown (konts : List Kont) (d : Reg) (ws : List Activation)
    (hstring : (overflowed heap roots).allocString (Text.chr 120) = (p, s)) : ∃ a, a.code.head? = some .poll ∧
      advance code .idle ⟨overflowed heap roots, ⟨shows, konts, lastRegs, 0, d⟩, ws⟩ 4 =
        .running ⟨(s.print (s.bytes p)).2.flush, a, ws⟩ := by
  have hmade : advance code .idle ⟨overflowed heap roots, ⟨shows, konts, lastRegs, 0, d⟩, ws⟩ 2 =
      .running ⟨((overflowed heap roots).allocString (Text.chr 120)).2,
        ⟨shows.drop 2, konts, (lastRegs.setIfInBounds 5 (.integer 120)).setIfInBounds 6
          (.string ((overflowed heap roots).allocString (Text.chr 120)).1), 0, d⟩, ws⟩ := rfl
  rw [hstring] at hmade
  exact ⟨_, rfl, (advance_idle_add (n := 2) hmade).trans rfl⟩

theorem runs (heap : Heap) (written : Array UInt8)
    (hstring : ∀ roots, ∃ p s, (overflowed heap roots).allocString (Text.chr 120) = (p, s) ∧
      (s.print (s.bytes p)).2.terminal.sink.written = written ∧
      (s.print (s.bytes p)).2.abort = some (.roots .overflow)) :
    ∃ fuel t, code.run { memory := ⟨heap, {}, #[]⟩ } fuel = some t ∧ t.terminal.sink.written = written ∧
      t.result = .failure (.roots .overflow) := by
  obtain ⟨n, m, hm, hentered⟩ := entered heap (maxRootDepth - 1) (by decide)
  obtain ⟨k, roots, konts, d, hlast⟩ := hentered.last
  obtain ⟨p, s, halloc, hwritten, habort⟩ := hstring roots
  obtain ⟨a, hactive, hshown⟩ := shown konts d m.waiting halloc
  have hpending : (s.print (s.bytes p)).2.flush.abort = some (.roots .overflow) := (recalls_flush _).abort _ habort
  obtain ⟨j, t, hj, hsame, ht⟩ := unwinds (m := ⟨(s.print (s.bytes p)).2.flush, a, m.waiting⟩) hpending hactive
    hentered.waiting
  refine ⟨n + k + 4 + j, t, run_eq_some_iff.mpr ?_, ?_, by rw [result, ht]⟩
  · have hfour := (advance_idle_add ((advance_idle_add hm).trans hlast)).trans hshown
    exact (advance_idle_add hfour).trans hj
  · have hterminal := hsame.trans (terminal_onRoots (s.print (s.bytes p)).2 _)
    rw [hterminal, hwritten]

end Sinking

theorem bareHeads_sinking : sinking.BareHeads :=
  .of_two (by decide) _ _ _ _

/-- With a fatal condition pending a refused allocation goes unrecorded, and what it gives in place of a
string shows: two runs that do not end for want of memory show different things. -/
theorem hidden_refusal_observed : sinking.BareHeads ∧ sinking.AssignsInStatements ∧ sinking.Steady ∧
      ∃ code fuel t fuel' t', (sinking.compile false).result = .ok code ∧ code.CellsOfMain ∧
        code.run { memory := .new 1000 1 } fuel = some t ∧
        code.run { memory := .new 1000 1000 } fuel' = some t' ∧
        (∀ x, t.result ≠ .failure (.outOfMemory x)) ∧ (∀ x, t'.result ≠ .failure (.outOfMemory x)) ∧
        t'.terminal.sink.written ≠ t.terminal.sink.written := by
  obtain ⟨fuel, t, hrun, hwritten, hresult⟩ := Sinking.runs (.new 1000 1) #[] fun roots => ⟨_, _, rfl, rfl, rfl⟩
  obtain ⟨fuel', t', hrun', hwritten', hresult'⟩ := Sinking.runs (.new 1000 1000) #[120]
    fun roots => ⟨_, _, rfl, rfl, rfl⟩
  refine ⟨bareHeads_sinking, ?_, ?_, Sinking.code, fuel, t, fuel', t', Sinking.compile_eq, ?_, hrun, hrun', ?_, ?_, ?_⟩
  · show ∀ c ∈ sinking.chains, ∀ b ∈ c.blocks, "set_var" ∉ Argument.namesIn b.args
    decide
  · show ∀ c ∈ sinking.chains, ∀ b ∈ c.blocks, "random" ∉ b.names ∧ "unix_time" ∉ b.names
    decide
  · decide
  · intro x hx
    cases hresult.symm.trans hx
  · intro x hx
    cases hresult'.symm.trans hx
  · rw [hwritten, hwritten']
    decide

end Program

end Blockwork
