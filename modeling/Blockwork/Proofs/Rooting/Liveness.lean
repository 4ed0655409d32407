import Blockwork.Proofs.Rooting.Balance

/-! # No pointer dangles
When only the main function assigns to the cells, every pointer that a running program follows leads to a
static value or to a chunk of the heap, whatever is collected in between. -/

namespace Blockwork

/-! ### Assignments to cells -/

mutual

/-- Whether an instruction, or one of a body inside it, stores into a cell of the program. -/
def Instr.storesCell : Instr → Bool
  | .store (.global _) _ => true
  | .rooted body => Instr.storesCellIn body
  | .ifThen _ body => Instr.storesCellIn body
  | .countLoop _ body => Instr.storesCellIn body
  | .whileLoop test _ body => Instr.storesCellIn test || Instr.storesCellIn body
  | .foreverLoop body => Instr.storesCellIn body
  | _ => false

def Instr.storesCellIn : List Instr → Bool
  | [] => false
  | i :: is => i.storesCell || Instr.storesCellIn is

end

/-- The blocks that a program defines assign to variables of their own only: a variable of the program
is assigned by the main function. -/
def ProgramCode.CellsOfMain (p : ProgramCode) : Prop :=
  ∀ fn ∈ p.functions, Instr.storesCellIn fn.code = false

instance (p : ProgramCode) : Decidable p.CellsOfMain :=
  inferInstanceAs (Decidable (∀ fn ∈ p.functions, _))

namespace Flow

open Memory Instr

variable {c : Rules} {cells : List Bool} {p : ProgramCode} {b : Room} {s : Session} {m : Machine} {es : List Roots}

def Rules.sealed (c : Rules) : Rules :=
  { c with isSealed := true }

theorem Step.sealed (h : Step c b f i g) (hi : c.main = false → i.storesCell = false) : Step c.sealed b f i g := by
  cases h with
  | @assign r ty pl hf hr hp _ =>
    refine .assign (c := c.sealed) hf hr hp fun _ hmain k hk => ?_
    subst hk
    cases hi hmain
  | declarePlain hf hr hm => exact .declarePlain (c := c.sealed) hf hr hm
  | declareHeap hf hr hb hm => exact .declareHeap (c := c.sealed) hf hr hb hm
  | flush hf hd hb => exact .flush hf hd hb
  | _ => constructor <;> assumption

theorem Exit.sealed (h : Exit c b st i st') : Exit c.sealed b st i st' := by
  cases h <;> constructor <;> assumption

theorem Flows.sealed (h : Flows c b pt is pt') :
    (c.main = false → storesCellIn is = false) → Flows c.sealed b pt is pt' := by
  -- the condition on a list of instructions is one on the first and one on the rest
  have hhead : ∀ {i is}, (c.main = false → storesCellIn (i :: is) = false) →
      (c.main = false → i.storesCell = false) ∧ (c.main = false → storesCellIn is = false) := by
    intro i is hall
    simp only [storesCellIn, Bool.or_eq_false_iff] at hall
    exact ⟨fun hmain => (hall hmain).1, fun hmain => (hall hmain).2⟩
  induction h with
  | nil => exact fun _ => .nil
  | dead => exact fun _ => .dead
  | weaken hw _ ih => exact fun hall => .weaken hw (ih hall)
  | step hs _ ih => exact fun hall => .step (hs.sealed (hhead hall).1) (ih (hhead hall).2)
  | call hf hd hb ha hr _ ih =>
    intro hall
    exact .call hf hd hb ha hr (ih (hhead (hhead hall).2).2)
  | rooted hf _ he _ ihb ih =>
    intro hall
    exact .rooted hf (ihb (hhead hall).1) he (ih (hhead hall).2)
  | ifThen hf _ he _ ihb ih =>
    intro hall
    exact .ifThen hf (ihb (hhead hall).1) he (ih (hhead hall).2)
  | countLoop hf hp _ he _ ihb ih =>
    intro hall
    exact .countLoop hf hp (ihb (hhead hall).1) he (ih (hhead hall).2)
  | foreverLoop hc hf hp _ he _ ihb ih =>
    intro hall
    exact .foreverLoop hc hf hp (ihb (hhead hall).1) he (ih (hhead hall).2)
  | whileLoop hc hp hf hg hw hl _ _ he _ iht ihb ih =>
    intro hall
    have hboth : ∀ hmain : c.main = false, _ := fun hmain => Bool.or_eq_false_iff.mp ((hhead hall).1 hmain)
    exact .whileLoop hc hp hf hg hw hl (iht fun hmain => (hboth hmain).1) (ihb fun hmain => (hboth hmain).2) he
      (ih (hhead hall).2)
  | whileDead hc hp hf _ iht =>
    intro hall
    have hboth : ∀ hmain : c.main = false, _ := fun hmain => Bool.or_eq_false_iff.mp ((hhead hall).1 hmain)
    exact .whileDead hc hp hf (iht fun hmain => (hboth hmain).1)
  | leave hf hd _ ih => exact fun hall => .leave hf hd (ih (hhead hall).2)
  | exit hexit _ ih => exact fun hall => .exit hexit.sealed (ih (hhead hall).2)
  | ret hmain => exact fun _ => .ret hmain
  | retValue hmain hr => exact fun _ => .retValue hmain hr

theorem FunctionOk.sealed (h : FunctionOk c cells fn) (hcells : c.main = false → storesCellIn fn.code = false) :
    FunctionOk c.sealed cells fn := by
  cases h with
  | @framed d r body tail e hd hr hcode hasks hbody he htail =>
    have hparts : c.main = false → storesCellIn body = false ∧ storesCellIn tail = false := by
      intro hmain
      have hall := hcells hmain
      rw [hcode] at hall
      simpa [storesCellIn, storesCell] using hall
    exact .framed hd hr hcode hasks (hbody.sealed fun hmain => (hparts hmain).1) he
      (htail.sealed fun hmain => (hparts hmain).2)
  | @bare d rest hd hcode hasks hrest =>
    refine .bare hd hcode hasks (hrest.sealed fun hmain => ?_)
    have hall := hcells hmain
    rw [hcode] at hall
    simpa [storesCellIn, storesCell] using hall

theorem ProgramOk.sealed (h : ProgramOk c cells p) (hcells : p.CellsOfMain) : ProgramOk c.sealed cells p where
  size := h.size
  main := h.main.sealed fun hmain => by cases hmain
  functions := fun i n hi => by
    obtain ⟨fn, hfn, hok⟩ := h.functions i n hi
    exact ⟨fn, hfn, hok.sealed fun _ => hcells fn (Array.mem_of_getElem? hfn)⟩

/-! ### Arguments -/

/-- What is known of the arguments of an entry point: they are held, or the entry point only moves
roots and their pointers lead to chunks. -/
def Prepared (e : Entry) (m : Memory) (vs : List Value) : Prop :=
  (e.ordinary = true ∧ ∀ v ∈ vs, m.HeldValue m.roots v) ∨ (e.ordinary = false ∧ ∀ v ∈ vs, ∀ q ∈ v.refs, m.heap.Live q)

theorem Prepared.of_refs {m : Memory} (h : ∀ v ∈ vs, v.refs = []) : Prepared e m vs := by
  cases ho : e.ordinary with
  | true => exact Or.inl ⟨ho, fun v hv => .of_refs (h v hv)⟩
  | false => exact Or.inr ⟨ho, fun v hv q hq => absurd (h v hv ▸ hq) List.not_mem_nil⟩

theorem Prepared.of_held {m : Memory} (ho : e.ordinary = true) (hv : m.HeldValue m.roots v) : Prepared e m [v] := by
  refine Or.inl ⟨ho, fun w hw => ?_⟩
  cases List.mem_singleton.mp hw
  exact hv

variable {σ : Site} {a : Activation}

theorem Site.Leaves.prepared {d : Reg} (hc : σ.rules.Careful) (h : σ.Leaves st s a.get)
    (hexit : Exit σ.rules b st (.entry d e args) st') : Prepared e s.memory (args.map a.get) := by
  cases hexit with
  | nothing _ => exact .of_refs nofun
  | scalar _ _ hr => exact .of_refs (List.forall_mem_singleton.mpr ((h.carries hc _ .plain hr).2.1 rfl))
  | @hand f d r _ _ hr =>
    refine Or.inr ⟨rfl, fun w hw => ?_⟩
    cases List.mem_singleton.mp hw
    exact (h.carries hc r .heap hr).1
  | literal _ hr => exact .of_refs (List.forall_mem_singleton.mpr ((h.carries hc _ .plain hr).2.1 rfl))
  | boxHanded _ he => exact .of_held he.ordinary (Held.of_direct (h.carries hc).1 (h.carries hc).2)
  | boxMade _ => exact .of_held rfl (Held.of_direct (h.carries hc).1 (h.carries hc).2)

theorem Site.Runs.prepared {f : Facts} (hc : σ.rules.Careful) (h : σ.Runs b fs f pt s a)
    (hcode : a.code = .entry d e args :: rest) : Prepared e s.memory (args.map a.get) := by
  obtain ⟨hbefore, hflow, -⟩ := h
  rw [hcode] at hflow
  obtain ⟨g, hw, hhead⟩ := hflow.head
  have hholds := (hbefore.weaken hw).holds hc
  cases hhead with
  | leave _ _ _ => exact .of_refs nofun
  | step hstep _ =>
    cases hstep with
    | flush _ _ _ => exact .of_refs nofun
    | @register _ r pl hf _ hr _ =>
      have hplace : a.get r = .place (σ.place pl) := hholds.means.regs r _ hr
      exact .of_refs (List.forall_mem_singleton.mpr (by rw [hplace]; rfl))
    | entry _ _ ho _ _ hargs =>
      refine Or.inl ⟨ho, fun v hv => ?_⟩
      obtain ⟨r, hr, rfl⟩ := List.mem_map.mp hv
      obtain ⟨w, hknows⟩ := hargs r hr
      exact (hholds.fits hknows).heldValue

theorem InOrder.prepared (hc : c.Careful) (h : InOrder c cells es m) (hcode : m.active.code = .entry d e args :: rest) :
    Prepared e m.session.memory (args.map m.active.get) := by
  cases h with
  | @intro σ s a ws es n hrules hcells hdoing hwaits habort =>
    have hcareful : σ.rules.Careful := by
      rw [hrules]
      exact hc
    cases hdoing with
    | @entering fn hfn hfirst _ _ _ _ =>
      cases hfn with
      | framed _ _ hfncode _ _ _ _ | bare _ hfncode _ _ =>
        cases hcode.symm.trans (hfirst.trans hfncode)
        exact .of_refs nofun
    | pending _ hpending _ _ _ _ _ _ _ => cases hcode.symm.trans hpending
    | running hruns => exact hruns.prepared hcareful hcode
    | closing _ hclosing _ _ _ _ _ =>
      cases hcode.symm.trans hclosing
      exact .of_refs nofun
    | leaving hflow _ _ hleaves =>
      have hnow : a.code = .entry d e args :: rest := hcode
      rw [hnow] at hflow
      rcases hflow.left_cases with ⟨st', hexit, -⟩ | ⟨hret, -⟩ | ⟨r, hret, -⟩
      · exact hleaves.prepared hcareful hexit
      · cases hret
      · cases hret

theorem InOrder.sound (hc : c.Careful) (h : InOrder c cells es m) : m.session.memory.Sound := by
  cases h with
  | @intro σ s a ws es n hrules hcells hdoing hwaits habort =>
    have hcareful : σ.rules.Careful := by
      rw [hrules]
      exact hc
    cases hdoing with
    | entering _ _ _ _ _ hkeeps | pending _ _ _ _ _ _ _ _ hkeeps => exact (hkeeps hcareful).1.orderly.sound
    | running hruns => exact (hruns.holds hcareful).orderly.sound
    | closing _ _ _ _ _ _ hkeeps => exact (hkeeps hcareful).1.orderly.sound
    | leaving _ _ _ hleaves => exact (hleaves.rests hcareful).orderly.sound

theorem InOrder.element_held (hc : c.Careful) (h : InOrder c cells es m)
    (hcode : m.active.code = .element d r :: rest) :
    m.session.memory.HeldValue m.session.memory.roots (m.active.get r) := by
  obtain ⟨σ, b, fs, f, e, n, hrules, -, hbefore, hhead, -⟩ := h.head hcode rfl
  have hholds := hbefore.holds (by rw [hrules]; exact hc)
  cases hhead with
  | step hstep _ =>
    cases hstep with
    | element _ _ hr => exact (hholds.fits hr).heldValue

end Flow

/-! ### Reaching from values -/

/-- A pointer that can be reached from values, through any number of chunks. -/
def Heap.Reaches (h : Heap) (vs : List Value) (p : Pointer) : Prop :=
  h.Reached (fun q => ∃ v ∈ vs, q ∈ v.refs) p

namespace Memory

variable {m : Memory} {vs : List Value} {p : Pointer}

theorem Sound.live_of_reaches (hm : m.Sound) (h : ∀ v ∈ vs, ∀ q ∈ v.refs, m.heap.Live q)
    (hp : m.heap.Reaches vs p) : m.heap.Live p := by
  cases hp with
  | root hroot =>
    obtain ⟨v, hv, hq⟩ := hroot
    exact h v hv _ hq
  | step _ hread href => exact hm.refers hread href

theorem safe_of_reaches (h : ∀ v ∈ vs, m.HeldValue m.roots v) (hp : m.heap.Reaches vs p) : m.Safe p := by
  induction hp with
  | root hroot =>
    obtain ⟨v, hv, hq⟩ := hroot
    exact (h v hv _ hq).safe (.refl _)
  | step _ hread href ih => exact ih.refers hread href

end Memory

theorem Entry.heap_run {e : Entry} (he : e.ordinary = false) (vs : List Value) (s : Session) :
    (e.run vs s).2.memory.heap = s.memory.heap ∧ (e.run vs s).1 = .zero := by
  have hroots : ∀ f, (s.onRoots f).memory.heap = s.memory.heap := by
    intro f
    unfold Session.onRoots Session.check
    simp only
    split
    · rw [Session.fail_memory]
    · rfl
  cases e with
  | rootBegin | rootEnd | rootSave | rootRestore | flush => exact ⟨hroots _, rfl⟩
  | addRoot =>
    simp only [Entry.run]
    split
    · exact ⟨hroots _, rfl⟩
    · exact ⟨rfl, rfl⟩
  | addTempRoot => exact ⟨hroots _, rfl⟩
  | _ => cases he

/-- What the next instruction of a machine follows leads to chunks or static values. -/
structure Machine.FollowsLive (m : Machine) : Prop where
  /-- Every collection starts from roots that do not dangle. -/
  closed : m.session.memory.Closed
  before : ∀ d e args rest, m.active.code = .entry d e args :: rest →
    ∀ p, m.session.memory.heap.Reaches (args.map m.active.get) p → m.session.memory.heap.Live p
  /-- It is still there at the end of the call, so no collection inside the call has freed it. -/
  during : ∀ d e args rest, m.active.code = .entry d e args :: rest →
    ∀ p, m.session.memory.heap.Reaches (args.map m.active.get) p →
      (e.run (args.map m.active.get) m.session).2.memory.heap.Live p
  /-- What the call has written or made leads to what is there at its end. -/
  after : ∀ d e args rest, m.active.code = .entry d e args :: rest → ∀ p,
    (e.run (args.map m.active.get) m.session).2.memory.heap.Reaches
      ((e.run (args.map m.active.get) m.session).1 :: args.map m.active.get) p →
    (e.run (args.map m.active.get) m.session).2.memory.heap.Live p
  /-- The content of an `any` is there when an element is made of it. -/
  element : ∀ d r rest, m.active.code = .element d r :: rest →
    ∀ p, m.session.memory.heap.Reaches [m.active.get r] p → m.session.memory.heap.Live p

namespace Flow

open Memory

theorem Prepared.live (hm : m.Sound) (h : Prepared e m vs) : ∀ v ∈ vs, ∀ q ∈ v.refs, m.heap.Live q := by
  rcases h with ⟨-, hheld⟩ | ⟨-, hlive⟩
  · exact fun v hv q hq => ((hheld v hv q hq).safe (.refl _)).live hm
  · exact hlive

theorem InOrder.followsLive {c : Rules} (hc : c.Careful) (h : InOrder c cells es m) : m.FollowsLive := by
  have hsound := h.sound hc
  refine ⟨hsound.closed, fun d e args rest hcode p hp => ?_, fun d e args rest hcode p hp => ?_,
    fun d e args rest hcode p hp => ?_, fun d r rest hcode p hp => ?_⟩
  · exact hsound.live_of_reaches ((h.prepared hc hcode).live hsound) hp
  · rcases h.prepared hc hcode with ⟨ho, hheld⟩ | ⟨ho, hlive⟩
    · exact (e.run_held ho hsound hheld).1.live p (safe_of_reaches hheld hp)
    · rw [(e.heap_run ho _ _).1]
      exact hsound.live_of_reaches hlive hp
  · rcases h.prepared hc hcode with ⟨ho, hheld⟩ | ⟨ho, hlive⟩
    · obtain ⟨hafter, hout⟩ := e.run_held ho hsound hheld
      refine hafter.sound.live_of_reaches (fun v hv q hq => ?_) hp
      rcases List.mem_cons.mp hv with rfl | hv
      · exact ((Held.of_direct hout.direct hout.held q hq).safe (.refl _)).live hafter.sound
      · exact hafter.live q ((hheld v hv q hq).safe (.refl _))
    · obtain ⟨hheap, hzero⟩ := e.heap_run ho (args.map m.active.get) m.session
      rw [hheap, hzero] at hp
      rw [hheap]
      refine hsound.live_of_reaches (fun v hv q hq => ?_) hp
      rcases List.mem_cons.mp hv with rfl | hv
      · cases hq
      · exact hlive v hv q hq
  · have hheld := h.element_held hc hcode
    refine hsound.live_of_reaches (fun v hv q hq => ?_) hp
    cases List.mem_singleton.mp hv
    exact ((hheld q hq).safe (.refl _)).live hsound

end Flow

namespace Program

/-- In every run of a compiled program, whatever its host does and whenever memory is collected, what an
entry point or the making of an element follows leads to a static value or to a chunk that is still there. -/
theorem pointers_live {p : Program} {keep : Bool} {code : ProgramCode} {s : Session} (hheads : p.BareHeads)
    (hassigns : p.AssignsInStatements) (hcode : (p.compile keep).result = .ok code)
    (hcells : code.CellsOfMain) (hs : s.Fresh) (h : Host) :
    ∀ n m, Machine.advance code h (Machine.load code s) n = .running m → (h.visit n m).FollowsLive := by
  intro n m hn
  obtain ⟨functions, cells, hok⟩ :=
    Flow.compile_programOk true false false hheads (fun _ => hassigns) nofun nofun hcode
  obtain ⟨entry, es, horder⟩ := (hok.sealed hcells).inOrder hs hn
  exact (horder.visit n).followsLive ⟨rfl, rfl⟩

theorem assignsInStatements_countdown : countdown.AssignsInStatements := by
  show ∀ c ∈ countdown.chains, ∀ b ∈ c.blocks, "set_var" ∉ Argument.namesIn b.args
  decide

theorem pointers_live_countdown :
    countdown.BareHeads ∧ countdown.AssignsInStatements ∧ ∃ code, (countdown.compile false).result = .ok code ∧
      code.CellsOfMain ∧ ∀ n m, Machine.advance code .idle (Machine.load code { memory := .new 100 10000 }) n =
        .running m → m.FollowsLive := by
  refine ⟨bareHeads_countdown, assignsInStatements_countdown, ?_⟩
  obtain ⟨code, hcode, heval⟩ := countdown.exists_code false (fun code => decide code.CellsOfMain) (by decide +kernel)
  have hcells : code.CellsOfMain := of_decide_eq_true heval
  exact ⟨code, hcode, hcells, pointers_live bareHeads_countdown assignsInStatements_countdown hcode hcells
    ⟨⟨_, _, rfl⟩, rfl⟩ .idle⟩

end Program

end Blockwork
