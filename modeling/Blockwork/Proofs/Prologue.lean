import Blockwork.Proofs.Rooting.Balance

/-! # Prologues
A function saves a mark and asks whether to leave before anything of its chain runs, as long as the
head of the chain carries its template and nothing else. -/

namespace Blockwork

/-- Code that saves a mark first and asks next whether to leave, inside the outermost frame if there is
one. -/
inductive FunctionCode.HasPrologue (fn : FunctionCode) : Prop where
  | framed {d : Reg} {body tail : List Instr} :
      fn.code = .entry d .rootSave [] :: .rooted (.poll :: body) :: tail → fn.HasPrologue
  | bare {d : Reg} {body : List Instr} : fn.code = .entry d .rootSave [] :: .poll :: body → fn.HasPrologue

/-- What a call leads to first, where step `n` of a run finds `m` at a call with the result in `d`: `k`
steps later the callee asks whether to leave. -/
structure Machine.Prologue (p : ProgramCode) (h : Host) (m₀ : Machine) (n k : Nat) (m : Machine) (d : Reg)
    (rest : List Instr) (asking : Machine) : Prop where
  reached : advance p h m₀ (n + k) = .running asking
  asks : ∃ body, asking.active.code = .poll :: body
  waits : asking.waiting = { m.active with code := rest } :: m.waiting
  saved : asking.session.memory.roots.marks = m.session.memory.roots.marks.push m.session.memory.roots.depth
  heap : asking.session.memory.heap = m.session.memory.heap
  /-- Until then nothing runs but the save and the opening of a frame. -/
  between : ∀ j m', n < j → j < n + k → advance p h m₀ j = .running m' →
    ∃ i is, m'.active.code = i :: is ∧ ((∃ r, i = .entry r .rootSave []) ∨ ∃ body, i = .rooted body)
  /-- If the program has to stop the caller goes on at once, with nothing and the roots it had. -/
  leaves : (h.act (n + k) asking.session).shouldExit = true → ∃ m', advance p h m₀ (n + k + 1) = .running m' ∧
    m'.waiting = m.waiting ∧ m'.active = Activation.set { m.active with code := rest } d nothingResult ∧
    m'.session.memory.roots = m.session.memory.roots

theorem Session.rootSave_memory (s : Session) : s.rootSave.memory = s.memory.withRoots s.memory.roots.save := by
  have hsave : s.rootSave = { s with memory := s.memory.withRoots s.memory.roots.save } := onRoots_eq rfl
  rw [hsave]

namespace Flow

open Session Machine

variable {cells : List Bool} {p : ProgramCode} {h : Host} {s : Session}

theorem FunctionOk.hasPrologue (hfn : FunctionOk c cells fn) (hmain : c.main = false) : fn.HasPrologue := by
  cases hfn with
  | framed _ _ hcode hasks =>
    obtain ⟨body, rfl⟩ := List.head?_eq_some_iff.mp (hasks hmain)
    exact .framed hcode
  | bare _ hcode hasks =>
    obtain ⟨body, rfl⟩ := List.head?_eq_some_iff.mp (hasks hmain)
    exact .bare hcode

theorem InOrder.callee (hp : ProgramOk c cells p) (hm : InOrder c cells es m)
    (hcode : m.active.code = .call d fn args :: rest) :
    ∃ callee, p.functions.getD fn default = callee ∧ FunctionOk (c.of false args.length) cells callee := by
  obtain ⟨σ, b, fs, f, e, n, hrules, -, -, hhead, -⟩ := hm.head hcode rfl
  cases hhead with
  | step hstep => cases hstep
  | call _ _ _ harity =>
    rw [hrules] at harity
    obtain ⟨callee, hcallee, hok⟩ := hp.functions fn args.length harity
    refine ⟨callee, ?_, hok⟩
    rw [Array.getD_eq_getD_getElem?, hcallee]
    rfl

theorem step_leaves (hcode : m.active.code = .poll :: body) (hexit : m.session.shouldExit = true)
    (hwaiting : m.waiting = caller :: ws) (hframes : Roots.Frames entry fs m.session.memory.roots) :
    ∃ m', step p m = .running m' ∧ m'.waiting = ws ∧
      m'.active = caller.set m.active.dst nothingResult ∧ m'.session.memory.roots = entry := by
  obtain ⟨s, ⟨code, konts, regs, base, dst⟩, waiting⟩ := m
  cases hcode
  cases hwaiting
  simp only [step, execute, hexit, if_true, leave]
  refine ⟨_, rfl, rfl, rfl, ?_⟩
  rw [rootRestore_eq hframes]
  rfl

theorem prologue_of_asking (hreached : advance p h m₀ (n + k) = .running asking)
    (hcode : asking.active.code = .poll :: body) (hdst : asking.active.dst = d)
    (hwaits : asking.waiting = { m.active with code := rest } :: m.waiting)
    (hframes : Roots.Frames m.session.memory.roots fs asking.session.memory.roots)
    (hheap : asking.session.memory.heap = m.session.memory.heap)
    (hbetween : ∀ j m', n < j → j < n + k → advance p h m₀ j = .running m' →
      ∃ i is, m'.active.code = i :: is ∧ ((∃ r, i = .entry r .rootSave []) ∨ ∃ body, i = .rooted body)) :
    Prologue p h m₀ n k m d rest asking where
  reached := hreached
  asks := ⟨body, hcode⟩
  waits := hwaits
  saved := hframes.marks
  heap := hheap
  between := hbetween
  leaves := fun hexit => by
    have hvisited : Roots.Frames m.session.memory.roots fs (h.visit (n + k) asking).session.memory.roots := by
      rw [Host.visit_session, h.memory_act]
      exact hframes
    obtain ⟨m', hstep, hwaiting, hactive, hroots⟩ :=
      step_leaves (p := p) (m := h.visit (n + k) asking) hcode hexit hwaits hvisited
    refine ⟨m', (advance_succ hreached).trans hstep, hwaiting, ?_, hroots⟩
    rw [hactive, ← hdst]
    rfl

theorem ProgramOk.prologue (hp : ProgramOk c cells p) (hs : s.Fresh)
    (hm : advance p h (load p s) n = .running m) (hcode : m.active.code = .call d fn args :: rest) :
    ∃ k asking, k ≤ 3 ∧ Prologue p h (load p s) n k m d rest asking := by
  obtain ⟨entry, es, horder⟩ := hp.inOrder hs hm
  obtain ⟨callee, hget, hok⟩ := horder.callee hp hcode
  -- the call
  let a₁ : Activation := start callee (args.map m.active.get) m.session.memory.slots.size d
  let m₁ : Machine := ⟨addSlots (h.act n m.session) callee.slots, a₁,
    { m.active with code := rest } :: m.waiting⟩
  have hstep₁ : advance p h (load p s) (n + 1) = .running m₁ := by
    rw [advance_succ hm]
    obtain ⟨s', ⟨code, konts, regs, base, dst⟩, ws⟩ := m
    cases hcode
    show goOn _ _ _ = _
    simp only [hget, goOn, m₁, a₁, h.memory_act]
    rfl
  have hheap₁ : m₁.session.memory.heap = m.session.memory.heap := by
    show (h.act n m.session).memory.heap = _
    rw [h.memory_act]
  have hroots₁ : m₁.session.memory.roots = m.session.memory.roots := by
    show (h.act n m.session).memory.roots = _
    rw [h.memory_act]
  -- the save
  obtain ⟨r, more, hfirst, hmore⟩ : ∃ r more, callee.code = .entry r .rootSave [] :: more ∧
      ((∃ body, more = .poll :: body) ∨ ∃ body tail, more = .rooted (.poll :: body) :: tail) := by
    cases hok.hasPrologue rfl with
    | framed hcode => exact ⟨_, _, hcode, Or.inr ⟨_, _, rfl⟩⟩
    | bare hcode => exact ⟨_, _, hcode, Or.inl ⟨_, rfl⟩⟩
  let a₂ : Activation := Activation.set { a₁ with code := more } r .zero
  let m₂ : Machine := ⟨(h.act (n + 1) m₁.session).rootSave, a₂, m₁.waiting⟩
  have hstep₂ : advance p h (load p s) (n + 2) = .running m₂ := by
    rw [advance_succ hstep₁]
    show step p ⟨_, ⟨callee.code, _, _, _, _⟩, _⟩ = _
    rw [hfirst]
    rfl
  have hmemory₂ : m₂.session.memory = m₁.session.memory.withRoots m.session.memory.roots.save := by
    rw [rootSave_memory, h.memory_act, hroots₁]
  have hat₁ : ∀ m', advance p h (load p s) (n + 1) = .running m' →
      m'.active.code = .entry r .rootSave [] :: more := by
    intro m' hm'
    obtain rfl := Progress.running.inj (hstep₁.symm.trans hm')
    exact hfirst
  rcases hmore with ⟨body, rfl⟩ | ⟨body, tail, rfl⟩
  · have hframes : Roots.Frames m.session.memory.roots [] m₂.session.memory.roots := by
      rw [hmemory₂]
      exact .start
    refine ⟨2, m₂, by omega, prologue_of_asking hstep₂ rfl rfl rfl hframes ?_ fun j m' hlt hle hm' => ?_⟩
    · rw [hmemory₂]
      exact hheap₁
    · obtain rfl : j = n + 1 := by omega
      exact ⟨_, _, hat₁ m' hm', Or.inl ⟨r, rfl⟩⟩
  · -- the outermost frame
    let a₃ : Activation := Activation.enter { a₂ with code := tail } (.poll :: body) (.closeRoots tail)
    let m₃ : Machine := ⟨(h.act (n + 2) m₂.session).rootBegin, a₃, m₁.waiting⟩
    have hstep₃ : advance p h (load p s) (n + 3) = .running m₃ := by
      rw [advance_succ hstep₂]
      rfl
    have hmemory₃ : m₃.session.memory = m₁.session.memory.withRoots m.session.memory.roots.save.openFrame.2 := by
      rw [rootBegin_memory, h.memory_act, hmemory₂]
      rfl
    have hframes : Roots.Frames m.session.memory.roots [(0, m.session.memory.roots.save)]
        m₃.session.memory.roots := by
      rw [hmemory₃]
      exact .frame .start (.openFrame _ _)
    refine ⟨3, m₃, by omega, prologue_of_asking hstep₃ rfl rfl rfl hframes ?_ fun j m' hlt hle hm' => ?_⟩
    · rw [hmemory₃]
      exact hheap₁
    · obtain rfl | rfl : j = n + 1 ∨ j = n + 2 := by omega
      · exact ⟨_, _, hat₁ m' hm', Or.inl ⟨r, rfl⟩⟩
      · obtain rfl := Progress.running.inj (hstep₂.symm.trans hm')
        exact ⟨_, _, rfl, Or.inr ⟨_, rfl⟩⟩

end Flow

namespace Program

/-- Where the heads of defining chains are bare, every call in every run leads through the prologue of the
callee: it saves a mark and asks whether to leave before anything of its chain runs. -/
theorem prologue_first {p : Program} {keep : Bool} {code : ProgramCode} {s : Session} (hheads : p.BareHeads)
    (hcode : (p.compile keep).result = .ok code) (hs : s.Fresh) (h : Host) :
    ∀ n m d fn args rest, Machine.advance code h (Machine.load code s) n = .running m →
      m.active.code = .call d fn args :: rest →
      ∃ k asking, k ≤ 3 ∧ Machine.Prologue code h (Machine.load code s) n k m d rest asking := by
  intro n m d fn args rest hm hcall
  obtain ⟨functions, cells, hok⟩ := Flow.compile_programOk false false false hheads nofun nofun nofun hcode
  exact hok.prologue hs hm hcall

theorem prologue_first_countdown : countdown.BareHeads ∧ ∃ code, (countdown.compile false).result = .ok code ∧
      ∀ n m d fn args rest,
        Machine.advance code (.stopAt 9) (Machine.load code { memory := .new 100 10000 }) n = .running m →
        m.active.code = .call d fn args :: rest → ∃ k asking, k ≤ 3 ∧
          Machine.Prologue code (.stopAt 9) (Machine.load code { memory := .new 100 10000 }) n k m d rest asking := by
  refine ⟨bareHeads_countdown, ?_⟩
  obtain ⟨code, hcode, -⟩ := countdown.exists_code false (fun _ => true) (by decide +kernel)
  exact ⟨code, hcode, prologue_first bareHeads_countdown hcode ⟨⟨_, _, rfl⟩, rfl⟩ (.stopAt 9)⟩

/-- A program whose defining chain carries a block beside its template. -/
def laden (b : Block) : Program where
  chains :=
    [⟨[.mk "on_start" [], .mk "f" []]⟩, ⟨[.mk "define_block" ((Block.definition "f").args ++ [.block b])]⟩]
  blockdefs := [⟨"f", []⟩]

/-- What stands beside the template runs before the prologue: it is printed although the program is to
stop from the start, and where it returns it takes away the mark that the caller saved. -/
theorem laden_skips_prologue : ((laden (.mk "print" [.text "x"])).compile.result.toOption.bind
      (·.run { memory := .new 100 10000, stop := true } 100)).map (·.terminal.sink.written) = some #[120] ∧
    ((laden (.mk "return" [.text "x"])).compile.result.toOption.bind
      (·.run { memory := .new 100 10000 } 100)).map (·.abort) = some (some (.roots .underflow)) := by
  decide +kernel

end Program

end Blockwork
