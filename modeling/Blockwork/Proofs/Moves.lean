import Blockwork.Proofs.Runs
import Blockwork.Proofs.Rooting.Steps
import Blockwork.Proofs.Typing.Content

/-! # Moves
What a step does to the code and the continuations of the running function, whatever the values are. -/

namespace Blockwork

/-! ### Pending conditions -/

def Session.Limited (s : Session) : Prop :=
  maxRootDepth < s.memory.roots.depth → s.abort.isSome = true

structure Session.Recalls (s s' : Session) : Prop where
  stop : s.stop = true → s'.stop = true
  abort : ∀ e, s.abort = some e → s'.abort = some e
  limited : s.Limited → s'.Limited

namespace Roots

theorem depth_openFrame (r : Roots) : r.openFrame.2.depth ≤ maxRootDepth ∨ r.openFrame.1.isSome = true := by
  simp only [openFrame]
  split
  · exact Or.inr rfl
  next hle => exact Or.inl (Nat.not_lt.mp hle)

theorem depth_closeFrame (r : Roots) : r.closeFrame.2.depth ≤ r.depth := by
  unfold closeFrame
  split
  · exact Nat.le_refl _
  · simp [depth]

theorem depth_restore (r : Roots) : r.restore.2.depth ≤ r.depth := by
  unfold restore
  split
  · exact Nat.le_refl _
  · simp only
    split
    · exact Nat.le_refl _
    · simp only [depth, Array.size_shrink]
      omega

theorem depth_addTemp (r : Roots) (p : Pointer) : (r.addTemp p).depth = r.depth := by
  unfold addTemp
  split <;> rfl

end Roots

namespace Session

variable {s s' : Session}

theorem Recalls.refl (s : Session) : Recalls s s := ⟨id, fun _ h => h, id⟩

theorem Recalls.trans (h : Recalls s s') (h' : Recalls s' s'') : Recalls s s'' :=
  ⟨h'.stop ∘ h.stop, fun e he => h'.abort e (h.abort e he), h'.limited ∘ h.limited⟩

theorem Recalls.shouldExit (h : Recalls s s') (hs : s.shouldExit = true) : s'.shouldExit = true := by
  rcases (Bool.or_eq_true _ _).mp hs with habort | hstop
  · obtain ⟨e, he⟩ := Option.isSome_iff_exists.mp habort
    simp [Session.shouldExit, h.abort e he]
  · simp [Session.shouldExit, h.stop hstop]

theorem Limited.of_le (h : s.Limited) (hdepth : s'.memory.roots.depth ≤ s.memory.roots.depth)
    (habort : s'.abort = s.abort) : s'.Limited := by
  intro hover
  rw [habort]
  exact h (Nat.lt_of_lt_of_le hover hdepth)

theorem recalls_onRoots (s : Session) {f : Roots → Option RootError × Roots}
    (hf : ∀ r, (f r).2.depth ≤ r.depth ∨ (f r).2.depth ≤ maxRootDepth ∨ (f r).1.isSome = true) :
    Recalls s (s.onRoots f) := by
  have hdepth := hf s.memory.roots
  unfold onRoots
  cases hr : f s.memory.roots with
  | mk err r =>
    rw [hr] at hdepth
    simp only [hr]
    cases err with
    | none =>
      refine ⟨id, fun _ he => he, fun hs hover => ?_⟩
      rcases hdepth with hle | hle | hsome
      · exact hs (Nat.lt_of_lt_of_le hover hle)
      · exact absurd hover (Nat.not_lt.mpr hle)
      · cases hsome
    | some err =>
      let s' : Session := { s with memory := s.memory.withRoots r }
      refine ⟨fun hstop => (fail_stop s' _).trans hstop, fun e he => ?_, fun _ _ => isSome_fail s' _⟩
      rcases fail_abort s' (.roots err) with hsame | ⟨hnone, -⟩
      · exact hsame.trans he
      · cases hnone.symm.trans he

theorem recalls_rootBegin (s : Session) : Recalls s s.rootBegin :=
  recalls_onRoots s fun r => Or.inr r.depth_openFrame

theorem recalls_rootEnd (s : Session) : Recalls s s.rootEnd :=
  recalls_onRoots s fun r => Or.inl r.depth_closeFrame

theorem recalls_rootRestore (s : Session) : Recalls s s.rootRestore :=
  recalls_onRoots s fun r => Or.inl r.depth_restore

theorem recalls_rootSave (s : Session) : Recalls s s.rootSave :=
  recalls_onRoots s fun _ => Or.inl (Nat.le_refl _)

theorem recalls_flush (s : Session) : Recalls s s.flush :=
  recalls_onRoots s fun _ => Or.inl (Nat.le_refl _)

theorem recalls_addRoot (s : Session) (i : Nat) : Recalls s (s.addRoot i) :=
  recalls_onRoots s fun _ => Or.inl (Nat.le_refl _)

theorem recalls_addTempRoot (s : Session) (p : Pointer) : Recalls s (s.addTempRoot p) :=
  recalls_onRoots s fun r => Or.inl (Nat.le_of_eq (r.depth_addTemp p))

theorem Follows.recalls (h : Follows s s') : Recalls s s' := by
  have hdepth : s'.memory.roots.depth = s.memory.roots.depth := by
    rcases h.roots with hsame | ⟨p, hp⟩
    · rw [hsame]
    · rw [hp, Roots.depth_addTemp]
  refine ⟨fun hstop => h.stop.trans hstop, fun e he => ?_, fun hs hover => ?_⟩
  · rcases h.abort with hsame | ⟨hnone, -⟩
    · exact hsame.trans he
    · cases hnone.symm.trans he
  · rcases h.abort with hsame | ⟨-, e, hnew⟩
    · exact hs.of_le (Nat.le_of_eq hdepth) hsame hover
    · rw [hnew]
      rfl

end Session

open Session Instr

theorem counts_stop (r : Int64 × Session) : (counts r).stop = r.2.stop := rfl

theorem Entry.recalls_plan (e : Entry) (args : List Value) (s : Session) : s.Recalls ((e.plan args s).front s) := by
  refine ⟨fun hstop => ?_, fun _ he => he, id⟩
  show (e.plan args s).stop = true
  cases e with
  | anyFromInteger | anyFromFloat | anyFromBool | anyFromColor | anyFromString | anyFromList | listGet =>
    simp only [Entry.plan, boxes]
    split <;> exact hstop
  | stringFromAny | listFromAny =>
    simp only [Entry.plan]
    split <;> exact hstop
  | printLiteral | printString | printInteger | printFloat | printBool | printColor | printList
  | printAny => exact (Fronts.print s _).stop hstop
  | termSetFgColor => exact ((Fronts.refl s).control _).stop hstop
  | termSetBgColor => exact (Fronts.setBackground s _).stop hstop
  | termResetColor => exact (Fronts.resetColors s).stop hstop
  | termClear => exact (Fronts.clearScreen s).stop hstop
  | termSetCursor => exact ((Fronts.refl s).control _).stop hstop
  | random => exact (counts_stop _).trans ((Fronts.random s _ _).stop hstop)
  | _ => exact hstop

theorem Entry.recalls (e : Entry) (args : List Value) (s : Session) : s.Recalls (e.run args s).2 := by
  by_cases ho : e.ordinary = true
  · rw [e.run_eq_carry ho]
    exact (e.recalls_plan args s).trans (Plan.follows _ s).recalls
  · cases e with
    | rootBegin => exact s.recalls_rootBegin
    | rootEnd => exact s.recalls_rootEnd
    | rootSave => exact s.recalls_rootSave
    | rootRestore => exact s.recalls_rootRestore
    | flush => exact s.recalls_flush
    | addTempRoot => exact s.recalls_addTempRoot _
    | addRoot =>
      simp only [Entry.run]
      split
      · exact s.recalls_addRoot _
      · exact .refl s
    | _ => exact absurd rfl ho

def Kont.loops : Kont → Bool
  | .countLoop _ _ _ => true
  | .whileBody _ _ _ _ => true
  | .foreverLoop _ => true
  | _ => false

def Instr.isPlain : Instr → Bool
  | .call _ _ _ => false
  | .poll => false
  | .ret _ => false
  | .rooted _ => false
  | .ifThen _ _ => false
  | .countLoop _ _ => false
  | .whileLoop _ _ _ => false
  | .foreverLoop _ => false
  | _ => true

/-- How a function goes on within itself, from code and continuations to others, outside of the end of a
round. -/
inductive Machine.Moves : List Instr → List Kont → List Instr → List Kont → Prop where
  | plain {i : Instr} {is : List Instr} {ks : List Kont} : i.isPlain = true → Moves (i :: is) ks is ks
  | asked : Moves (.poll :: is) ks is ks
  | rooted {body is : List Instr} {ks : List Kont} :
      Moves (.rooted body :: is) ks body (.closeRoots is :: ks)
  | branch : Moves (.ifThen r body :: is) ks body (.next is :: ks)
  | skip : Moves (.ifThen r body :: is) ks is ks
  | count {n : Int64} {r : Reg} {body is : List Instr} {ks : List Kont} : ¬ n - 1 < 0 →
      Moves (.countLoop r body :: is) ks body (.countLoop (n - 1) body is :: ks)
  | none : Moves (.countLoop r body :: is) ks is ks
  | test : Moves (.whileLoop test r body :: is) ks test (.whileTest test r body is :: ks)
  | forever : Moves (.foreverLoop body :: is) ks body (.foreverLoop body :: ks)
  | next : Moves [] (.next rest :: ks) rest ks
  | close : Moves [] (.closeRoots rest :: ks) rest ks
  | holds : Moves [] (.whileTest test r body rest :: ks) body (.whileBody test r body rest :: ks)
  | fails : Moves [] (.whileTest test r body rest :: ks) rest ks

inductive Machine.Rounds : List Kont → List Instr → List Kont → Prop where
  | again : ¬ n - 1 < 0 → Rounds (.countLoop n body rest :: ks) body (.countLoop (n - 1) body rest :: ks)
  | done : Rounds (.countLoop n body rest :: ks) rest ks
  | retest : Rounds (.whileBody test r body rest :: ks) test (.whileTest test r body rest :: ks)
  | forever : Rounds (.foreverLoop body :: ks) body (.foreverLoop body :: ks)

theorem Machine.Moves.loops (h : Machine.Moves [] (k :: ks) code ks') : k.loops = false := by
  generalize hks : k :: ks = konts at h
  cases h <;> cases hks <;> rfl

theorem Machine.Rounds.loops (h : Machine.Rounds ks code ks') : ∃ k rest, ks = k :: rest ∧ k.loops = true := by
  cases h <;> exact ⟨_, _, rfl, rfl⟩

/-! ### Steps of a machine -/

def Activation.writes (a : Activation) : Option Reg :=
  a.code.head?.bind dst?

structure Activation.Goes (a a' : Activation) : Prop where
  dst : a'.dst = a.dst
  size : a'.regs.size = a.regs.size
  get : ∀ r, a.writes ≠ some r → a'.get r = a.get r

theorem Activation.Goes.same {a a' : Activation} (hdst : a'.dst = a.dst) (hregs : a'.regs = a.regs) : a.Goes a' :=
  ⟨hdst, congrArg Array.size hregs, fun _ _ => by rw [Activation.get, Activation.get, hregs]⟩

theorem Activation.Goes.set {regs : Array Value} {base : Nat} {dst d : Reg} (hd : i.dst? = some d) (v : Value) :
    Activation.Goes ⟨i :: is, ks, regs, base, dst⟩ (Activation.set ⟨is, ks, regs, base, dst⟩ d v) where
  dst := rfl
  size := Activation.size_regs_set _ d v
  get := fun r hr => Activation.get_set_ne _ d r v fun h => hr (h ▸ hd)

namespace Machine

/-- A round of a loop is over: its next one is about to begin, or what follows the loop. -/
def AtRound (m : Machine) : Prop :=
  m.active.code = [] ∧ ∃ k ks, m.active.konts = k :: ks ∧ k.loops = true

/-- What a step does: it moves within the running function, begins the next round of a loop, calls a
function, returns to the caller, or ends the run. -/
inductive Does (p : ProgramCode) (m : Machine) : Progress → Prop where
  | moves {s : Session} {a : Activation} : Moves m.active.code m.active.konts a.code a.konts →
      (∀ is, m.active.code = .poll :: is → m.session.shouldExit = false) → m.active.Goes a → m.session.Recalls s →
      Does p m (.running ⟨s, a, m.waiting⟩)
  | rounds {s : Session} {a : Activation} : m.active.code = [] → Rounds m.active.konts a.code a.konts →
      m.active.Goes a → m.session.Recalls s → Does p m (.running ⟨s, a, m.waiting⟩)
  | calls {s : Session} {a : Activation} {d : Reg} {fn : Nat} {args : List Reg} {is : List Instr} :
      m.active.code = .call d fn args :: is → a.code = (p.functions.getD fn default).code → a.konts = [] →
      a.dst = d ∧ (p.functions.getD fn default).registers ≤ a.regs.size → m.session.Recalls s → Does p m (.running ⟨s, a, { m.active with code := is } :: m.waiting⟩)
  | returns {s : Session} {caller : Activation} {ws : List Activation} {v : Value} :
      m.waiting = caller :: ws → m.session.Recalls s →
      Does p m (.running ⟨s, caller.set m.active.dst v, ws⟩)
  | ends : m.waiting = [] → m.session.Recalls s → Does p m (.finished s)

variable {p : ProgramCode} {s : Session} {ws : List Activation} {a : Activation}

theorem Does.of_leave (hdst : a.dst = a₀.dst) (hs : s₀.Recalls s) : Does p ⟨s₀, a₀, ws⟩ (leave s ws a v) := by
  cases ws with
  | nil => exact .ends rfl ⟨hs.stop, hs.abort, hs.limited⟩
  | cons caller ws =>
    show Does p _ (.running ⟨{ s with memory := { s.memory with slots := s.memory.slots.shrink a.base } },
      caller.set a.dst v, ws⟩)
    rw [hdst]
    exact .returns rfl ⟨hs.stop, hs.abort, hs.limited⟩

theorem does_execute (p : ProgramCode) (s : Session) (ws : List Activation) (i : Instr) (is : List Instr)
    (ks : List Kont) (regs : Array Value) (base : Nat) (dst : Reg) :
    Does p ⟨s, ⟨i :: is, ks, regs, base, dst⟩, ws⟩ (execute p s ws ⟨is, ks, regs, base, dst⟩ i) := by
  have hsame : s.Recalls s := .refl s
  cases i with
  | constant | unary | binary | element | load => exact .moves (.plain rfl) nofun (.set rfl _) hsame
  | store => exact .moves (.plain rfl) nofun (.same rfl rfl) ⟨hsame.stop, hsame.abort, hsame.limited⟩
  | address => exact .moves (.plain rfl) nofun (.set rfl _) hsame
  | entry d e => exact .moves (.plain rfl) nofun (.set rfl _) (e.recalls _ s)
  | call =>
    refine .calls rfl rfl rfl ⟨rfl, ?_⟩ ⟨hsame.stop, hsame.abort, hsame.limited⟩
    simp only [start, Array.size_append, List.size_toArray, Array.size_replicate]
    omega
  | poll =>
    cases hexit : s.shouldExit with
    | true =>
      simp only [execute, hexit, if_true]
      exact .of_leave rfl s.recalls_rootRestore
    | false =>
      simp only [execute, hexit]
      exact .moves .asked (fun _ _ => hexit) (.same rfl rfl) hsame
  | ret r =>
    cases r with
    | none | some => exact .of_leave rfl hsame
  | rooted => exact .moves .rooted nofun (.same rfl rfl) s.recalls_rootBegin
  | ifThen =>
    simp only [execute]
    split
    · exact .moves .branch nofun (.same rfl rfl) hsame
    · exact .moves .skip nofun (.same rfl rfl) hsame
  | countLoop =>
    simp only [execute, Activation.countRound]
    split
    · exact .moves .none nofun (.same rfl rfl) hsame
    next hcount => exact .moves (.count hcount) nofun (.same rfl rfl) hsame
  | whileLoop => exact .moves .test nofun (.same rfl rfl) hsame
  | foreverLoop => exact .moves .forever nofun (.same rfl rfl) hsame

theorem does_resume (p : ProgramCode) (s : Session) (ws : List Activation) (k : Kont)
    (ks : List Kont) (regs : Array Value) (base : Nat) (dst : Reg) :
    Does p ⟨s, ⟨[], k :: ks, regs, base, dst⟩, ws⟩ (resume s ws ⟨[], ks, regs, base, dst⟩ k) := by
  have hsame : s.Recalls s := .refl s
  cases k with
  | next => exact .moves .next nofun (.same rfl rfl) hsame
  | closeRoots => exact .moves .close nofun (.same rfl rfl) s.recalls_rootEnd
  | countLoop =>
    simp only [resume, Activation.countRound]
    split
    · exact .rounds rfl .done (.same rfl rfl) hsame
    next hcount => exact .rounds rfl (.again hcount) (.same rfl rfl) hsame
  | whileTest =>
    simp only [resume]
    split
    · exact .moves .holds nofun (.same rfl rfl) hsame
    · exact .moves .fails nofun (.same rfl rfl) hsame
  | whileBody => exact .rounds rfl .retest (.same rfl rfl) hsame
  | foreverLoop => exact .rounds rfl .forever (.same rfl rfl) hsame

theorem does (p : ProgramCode) (m : Machine) : Does p m (step p m) := by
  obtain ⟨s, ⟨code, konts, regs, base, dst⟩, ws⟩ := m
  cases code with
  | cons i is => exact does_execute p s ws i is konts regs base dst
  | nil =>
    cases konts with
    | cons k ks => exact does_resume p s ws k ks regs base dst
    | nil => exact .of_leave rfl (.refl s)

theorem recalls_step (h : step p m = .running m') : m.session.Recalls m'.session := by
  have hdoes := does p m
  rw [h] at hdoes
  cases hdoes with
  | moves _ _ _ hs | rounds _ _ _ hs | calls _ _ _ _ hs | returns _ hs => exact hs

theorem recalls_finish (h : step p m = .finished s) : m.session.Recalls s := by
  have hdoes := does p m
  rw [h] at hdoes
  cases hdoes with
  | ends _ hs => exact hs

end Machine

/-! ### What is left -/

def mostRounds : Nat := 9223372036854775808

def roundsLeft (n : Int64) : Nat :=
  if n = Int64.minValue then mostRounds else n.toInt.toNat

theorem toInt_countdown (h : ¬ n - 1 < 0) :
    0 ≤ (n - 1).toInt ∧ (n ≠ Int64.minValue → (n - 1).toInt = n.toInt - 1) := by
  have hnonneg : ¬ (n - 1).toInt < (0 : Int64).toInt := fun hneg => h (Int64.lt_iff_toInt_lt.mpr hneg)
  have hzero : (0 : Int64).toInt = 0 := rfl
  have hone : (1 : Int64).toInt = 1 := rfl
  rw [hzero] at hnonneg
  refine ⟨by omega, fun hn => ?_⟩
  have hmin : n.toInt ≠ Int64.minValue.toInt := fun heq => hn (Int64.toInt_inj.mp heq)
  have hle := Int64.le_toInt n
  have hlt := Int64.toInt_lt n
  have hsub := Int64.toInt_sub n 1
  rw [Int64.toInt_minValue] at hmin
  rw [hone, Int.bmod_def] at hsub
  omega

theorem roundsLeft_le (n : Int64) : roundsLeft n ≤ mostRounds := by
  have hlt := Int64.toInt_lt n
  unfold roundsLeft mostRounds
  split <;> omega

theorem roundsLeft_succ (h : ¬ n - 1 < 0) : roundsLeft n = roundsLeft (n - 1) + 1 := by
  obtain ⟨hnonneg, hdown⟩ := toInt_countdown h
  have hmin : n - 1 ≠ Int64.minValue := by
    intro heq
    rw [heq, Int64.toInt_minValue] at hnonneg
    omega
  unfold roundsLeft mostRounds
  rw [if_neg hmin]
  split
  next hn =>
    rw [hn]
    rfl
  next hn =>
    have hdown := hdown hn
    omega

theorem roundsLeft_lt (h : ¬ n - 1 < 0) : roundsLeft (n - 1) < roundsLeft n := by
  rw [roundsLeft_succ h]
  exact Nat.lt_succ_self _

mutual

/-- Bound of the steps of an instruction, where every loop without a count makes one round. -/
def Instr.weight : Instr → Nat
  | .rooted body => weightOf body + 2
  | .ifThen _ body => weightOf body + 2
  | .countLoop _ body => mostRounds * (weightOf body + 1) + 2
  | .whileLoop test _ body => weightOf test + weightOf body + 3
  | .foreverLoop body => weightOf body + 2
  | _ => 1

def Instr.weightOf : List Instr → Nat
  | [] => 0
  | i :: is => i.weight + weightOf is

end

def Kont.weight : Kont → Nat
  | .next rest => weightOf rest + 1
  | .closeRoots rest => weightOf rest + 1
  | .countLoop n body rest => roundsLeft n * (weightOf body + 1) + weightOf rest + 1
  | .whileTest _ _ body rest => weightOf body + weightOf rest + 2
  | .whileBody _ _ _ rest => weightOf rest + 1
  | .foreverLoop _ => 1

def Kont.weightOf : List Kont → Nat
  | [] => 0
  | k :: ks => k.weight + Kont.weightOf ks

def weightWith (code : List Instr) (ks : List Kont) : Nat :=
  weightOf code + Kont.weightOf ks

theorem Instr.weight_pos (i : Instr) : 0 < i.weight := by
  cases i <;> simp [weight]

theorem Instr.weight_plain {i : Instr} (h : i.isPlain = true) : i.weight = 1 := by
  cases i <;> first | rfl | cases h

theorem weight_round (w rest : Nat) (h : ¬ n - 1 < 0) :
    w + (roundsLeft (n - 1) * (w + 1) + rest) < roundsLeft n * (w + 1) + rest := by
  have hle : (roundsLeft (n - 1) + 1) * (w + 1) ≤ roundsLeft n * (w + 1) := Nat.mul_le_mul_right _ (roundsLeft_lt h)
  rw [Nat.add_one_mul] at hle
  omega

theorem Machine.Moves.weight_lt (h : Machine.Moves code ks code' ks') :
    weightWith code' ks' < weightWith code ks := by
  cases h with
  | plain hi =>
    simp only [weightWith, weightOf, weight_plain hi]
    omega
  | @count n _ _ is _ hn =>
    simp only [weightWith, weightOf, weight, Kont.weight, Kont.weightOf]
    have hround := weight_round (weightOf code') (weightOf is + 1) hn
    have hmost := Nat.mul_le_mul_right (weightOf code' + 1) (roundsLeft_le n)
    omega
  | _ =>
    simp only [weightWith, weightOf, weight, Kont.weight, Kont.weightOf]
    omega

theorem Machine.Rounds.weight_lt (h : Machine.Rounds (.countLoop n body rest :: ks) code ks') :
    weightWith code ks' < weightWith [] (.countLoop n body rest :: ks) := by
  cases h with
  | again hn =>
    simp only [weightWith, weightOf, Kont.weight, Kont.weightOf]
    have hround := weight_round (weightOf body) (weightOf rest + 1) hn
    omega
  | done =>
    simp only [weightWith, weightOf, Kont.weight, Kont.weightOf]
    omega

end Blockwork
