import Blockwork.Proofs.Cancellation
import Mathlib.Algebra.Group.Nat.Defs

/-! # Bounded recursion
Every function that waits at a call has a root frame open. -/

namespace Blockwork

def Machine.openCalls (m : Machine) : Nat := m.waiting.length

namespace Flow

open Machine Roots

variable {cells : List Bool} {p : ProgramCode} {h : Host} {s : Session} {n k : Nat} {m : Machine}

theorem depth_frames (h : Frames entry fs r) : r.depth = entry.depth + fs.length := by
  induction h with
  | start => rfl
  | @frame low older r fs _ ho ih =>
    have hframes : r.depth = older.depth + 1 := by
      simp only [depth, ho.frames, Array.size_push]
    rw [hframes, ih, List.length_cons]
    omega

theorem Waits.length_le (h : Waits c cells mem r limit d ws es) : ws.length ≤ r.depth := by
  induction h with
  | main => exact Nat.zero_le _
  | call _ _ _ hpauses =>
    have hdepth := depth_frames hpauses.frames
    have hopened := List.length_pos_iff.mpr hpauses.opened
    simp only [List.length_cons]
    omega

theorem Site.Doing.depth_le {σ : Site} (h : σ.Doing a s) : σ.entry.depth ≤ s.memory.roots.depth := by
  cases h with
  | entering _ _ _ hroots _ _ | pending _ _ _ hroots _ _ _ _ _ | closing _ _ _ hroots _ _ _ =>
    exact Nat.le_of_eq (congrArg depth hroots).symm
  | running hruns =>
    rw [depth_frames hruns.frames]
    exact Nat.le_add_right _ _
  | @leaving _ _ st _ _ _ _ hleaves =>
    have hleft := hleaves.left
    refine Nat.le_of_eq (Eq.symm ?_)
    cases st with
    | loose => exact congrArg depth hleft
    | handed => exact (congrArg depth hleft).trans (depth_addTemp _ _)
    | made =>
      rcases hleft with hroots | hroots
      · exact congrArg depth hroots
      · exact (congrArg depth hroots).trans rfl
    | boxed =>
      obtain ⟨new, hroots, -⟩ := hleft
      exact (congrArg depth hroots).trans rfl

theorem InOrder.openCalls_le (h : InOrder c cells es m) : m.openCalls ≤ m.session.memory.roots.depth := by
  cases h with
  | intro _ _ hdoing hwaits => exact Nat.le_trans hwaits.length_le hdoing.depth_le

inductive Opening : List Instr → Prop where
  | save {d : Reg} {is : List Instr} : Opening is → Opening (.entry d .rootSave [] :: is)
  | frame {body is : List Instr} : Opening (.rooted (.poll :: body) :: is)
  | ask {is : List Instr} : Opening (.poll :: is)

theorem opening_of_hasPrologue {fn : FunctionCode} (h : fn.HasPrologue) : Opening fn.code := by
  cases h with
  | framed hcode =>
    rw [hcode]
    exact .save .frame
  | bare hcode =>
    rw [hcode]
    exact .save .ask

theorem Opening.moves (h : Opening code) (hmoves : Machine.Moves code ks code' ks') (hpoll : ∀ is, code ≠ .poll :: is) :
    Opening code' := by
  cases h with
  | save hrest =>
    cases hmoves with
    | plain => exact hrest
  | frame =>
    cases hmoves with
    | plain hplain => cases hplain
    | rooted => exact .ask
  | ask => exact absurd rfl (hpoll _)

/-- The innermost of as many calls as there may be has only its prologue to run. -/
structure Shallow (m : Machine) : Prop where
  le : m.openCalls ≤ maxRootDepth + 1
  opening : m.openCalls = maxRootDepth + 1 → Opening m.active.code

theorem InOrder.abort_of_full (h : InOrder c cells es m) (hlimited : m.session.Limited)
    (hfull : m.openCalls = maxRootDepth + 1) : m.session.abort.isSome = true := by
  have hle := h.openCalls_le
  exact hlimited (by omega)

theorem Shallow.step (hp : ProgramOk c cells p) (horder : InOrder c cells es m)
    (hlimited : m.session.Limited) (h : Shallow m) (hstep : step p m = .running m') : Shallow m' := by
  have hexit : m.openCalls = maxRootDepth + 1 → m.session.shouldExit = true := fun hfull => by
    simp [Session.shouldExit, horder.abort_of_full hlimited hfull]
  have hdoes := does p m
  rw [hstep] at hdoes
  cases hdoes with
  | moves hmoves hpoll =>
    refine ⟨h.le, fun hfull => (h.opening hfull).moves hmoves fun is hcode => ?_⟩
    cases (hpoll is hcode).symm.trans (hexit hfull)
  | rounds hcode =>
    refine ⟨h.le, fun hfull => ?_⟩
    have hopening := h.opening hfull
    rw [hcode] at hopening
    cases hopening
  | @calls s a d fn args is hcode hbody _ _ _ =>
    have hlt : m.openCalls ≠ maxRootDepth + 1 := fun hfull => by
      have hopening := h.opening hfull
      rw [hcode] at hopening
      cases hopening
    have hle := h.le
    refine ⟨?_, fun _ => ?_⟩
    · simp only [openCalls, List.length_cons] at hlt hle ⊢
      omega
    · obtain ⟨callee, hget, hok⟩ := horder.callee hp hcode
      rw [hbody, hget]
      exact opening_of_hasPrologue (hok.hasPrologue rfl)
  | @returns s caller ws v hwaiting _ =>
    have hle := h.le
    have hlength : m.openCalls = ws.length + 1 := congrArg List.length hwaiting
    refine ⟨?_, fun hfull => ?_⟩
    · show ws.length ≤ _
      omega
    · have hfull : ws.length = maxRootDepth + 1 := hfull
      omega

theorem ProgramOk.shallow (hp : ProgramOk c cells p) (hs : s.Fresh)
    (hm : advance p h (load p s) n = .running m) : m.session.Limited ∧ Shallow m := by
  refine advance_from (P := fun _ m => m.session.Limited ∧ Shallow m) (k := 0) rfl ⟨?_, ?_⟩
    (fun j mj mj' _ hmj hboth hstep => ?_) (Nat.zero_le n) hm
  · obtain ⟨low, limit, hnew⟩ := hs.memory
    intro hover
    have hzero : (load p s).session.memory.roots.depth = 0 := by
      show s.memory.roots.depth = 0
      rw [hnew]
      rfl
    rw [hzero] at hover
    exact absurd hover (Nat.not_lt_zero _)
  · exact ⟨Nat.zero_le _, fun hfull => absurd hfull (Nat.succ_ne_zero _).symm⟩
  · obtain ⟨entry, es, horder⟩ := hp.inOrder hs hmj
    have hlimited : (h.visit j mj).session.Limited := limited_act h j hboth.1
    exact ⟨(recalls_step hstep).limited hlimited,
      Shallow.step hp (horder.visit j) hlimited ⟨hboth.2.le, hboth.2.opening⟩ hstep⟩

theorem ProgramOk.fails_of_full (hp : ProgramOk c cells p) (hs : s.Fresh)
    (hm : advance p h (load p s) n = .running m) (hfull : m.openCalls = maxRootDepth + 1) :
    ∃ N t e, advance p h (load p s) N = .finished t ∧ t.result = .failure e ∧ t.memory.roots.depth = 0 := by
  obtain ⟨entry, es, horder⟩ := hp.inOrder hs hm
  obtain ⟨e, he⟩ := Option.isSome_iff_exists.mp (horder.abort_of_full (hp.shallow hs hm).1 hfull)
  have hact : (h.act n m.session).abort.isSome = true := by
    rw [abort_act h n he]
    rfl
  have hexit : (h.act n m.session).shouldExit = true := by
    simp [Session.shouldExit, hact]
  have hstop : Stopping c cells p h s n := ⟨hp, hs, fun _ _ hk hm' => pending_of_le hm hexit (Or.inl hact) hk hm'⟩
  obtain ⟨N, t, ht⟩ := hstop.ends hm
  refine ⟨N, t, e, ht, ?_, (hp.finished hs ht).2.1⟩
  simp [Session.result, abort_finished hm he ht]

/-! ### What is left of all calls -/

def leftOf (a : Activation) : Nat := weightWith a.code a.konts

def reserve (base : Nat) : List Activation → Nat
  | [] => 0
  | a :: ws => (leftOf a + 1) * base ^ (maxRootDepth + 2 - ws.length) + reserve base ws

def heaviest : List FunctionCode → Nat
  | [] => 0
  | fn :: fns => max (Instr.weightOf fn.code) (heaviest fns)

theorem le_heaviest (h : fn ∈ fns) : Instr.weightOf fn.code ≤ heaviest fns := by
  induction h with
  | head => exact Nat.le_max_left _ _
  | tail _ _ ih => exact Nat.le_trans ih (Nat.le_max_right _ _)

def runBase (p : ProgramCode) : Nat :=
  heaviest p.functions.toList + 2

theorem weightOf_lt_runBase (p : ProgramCode) (fn : Nat) :
    Instr.weightOf (p.functions.getD fn default).code + 1 < runBase p := by
  have hle : Instr.weightOf (p.functions.getD fn default).code ≤ heaviest p.functions.toList := by
    rw [Array.getD_eq_getD_getElem?]
    cases hget : p.functions[fn]? with
    | none => exact Nat.zero_le _
    | some => exact le_heaviest (Array.mem_toList_iff.mpr (Array.mem_of_getElem? hget))
  unfold runBase
  omega

section Reserve

variable {base : Nat} {a : Activation} {ws : List Activation}

theorem reserve_lt (hbase : 0 < base) (h : leftOf a' < leftOf a) : reserve base (a' :: ws) < reserve base (a :: ws) := by
  have hpow : 0 < base ^ (maxRootDepth + 2 - ws.length) := Nat.pow_pos hbase
  have hmul := Nat.mul_lt_mul_of_pos_right (Nat.add_lt_add_right h 1) hpow
  simp only [reserve]
  omega

theorem reserve_call (hcallee : leftOf callee + 1 < base) (h : leftOf a' < leftOf a)
    (hws : ws.length ≤ maxRootDepth + 1) : reserve base (callee :: a' :: ws) < reserve base (a :: ws) := by
  have hexp : maxRootDepth + 2 - ws.length = maxRootDepth + 2 - (ws.length + 1) + 1 := by omega
  have hpow : 0 < base ^ (maxRootDepth + 2 - (ws.length + 1)) := Nat.pow_pos (by omega)
  have hdigit := Nat.mul_lt_mul_of_pos_right hcallee hpow
  have hcaller := Nat.mul_le_mul_right (base ^ (maxRootDepth + 2 - ws.length)) (Nat.add_lt_add_right h 1)
  have hsplit : base ^ (maxRootDepth + 2 - ws.length) = base * base ^ (maxRootDepth + 2 - (ws.length + 1)) := by
    rw [hexp, Nat.pow_succ, Nat.mul_comm]
  rw [Nat.succ_mul] at hcaller
  simp only [reserve, List.length_cons]
  omega

theorem reserve_return (hbase : 0 < base) : reserve base ws < reserve base (a :: ws) := by
  have hpow : 0 < base ^ (maxRootDepth + 2 - ws.length) := Nat.pow_pos hbase
  have hmul := Nat.mul_le_mul_right (base ^ (maxRootDepth + 2 - ws.length)) (Nat.le_add_left 1 (leftOf a))
  simp only [reserve]
  omega

end Reserve

/-! ### The end of counted programs -/

theorem InOrder.counts (h : InOrder c cells es m) (hc : c.counted = true) (hcode : m.active.code = [])
    (hks : m.active.konts = kont :: ks) (hk : kont.loops = true) :
    ∃ left body rest, kont = .countLoop left body rest := by
  cases h with
  | @intro σ s a ws es n hrules hcells hdoing hwaits habort =>
    have hcounted : σ.rules.counted = true := by
      rw [hrules]
      exact hc
    have hcode : a.code = [] := hcode
    have hks : a.konts = kont :: ks := hks
    cases hdoing with
    | entering hfn hfirst =>
      cases hfn with
      | framed _ _ hfncode _ _ _ _ | bare _ hfncode _ _ => cases hcode.symm.trans (hfirst.trans hfncode)
    | pending _ hpending => cases hcode.symm.trans hpending
    | closing _ hclosing => cases hcode.symm.trans hclosing
    | leaving hflow hstack =>
      rw [hcode] at hflow
      cases hflow
      exact (Stack.not_left hstack).elim
    | running hruns =>
      have hstack := hruns.stack
      rw [hks] at hstack
      cases hstack with
      | next | closeRoots | closeOutermost => cases hk
      | countLoop => exact ⟨_, _, _, rfl⟩
      | whileTest | whileNever => cases hk
      | whileBody hwhile => cases hwhile.counted.symm.trans hcounted
      | foreverLoop hforever => cases hforever.symm.trans hcounted

theorem InOrder.reserve_step (horder : InOrder c cells es m) (hc : c.counted = true) (hshallow : Shallow m)
    (hstep : step p m = .running m') :
    reserve (runBase p) (m'.active :: m'.waiting) < reserve (runBase p) (m.active :: m.waiting) := by
  have hbase : 0 < runBase p := Nat.succ_pos _
  have hdoes := does p m
  rw [hstep] at hdoes
  cases hdoes with
  | moves hmoves => exact reserve_lt hbase hmoves.weight_lt
  | @rounds s a hcode hrounds _ _ =>
    obtain ⟨kont, ks, hks, hk⟩ := hrounds.loops
    obtain ⟨left, body, rest, rfl⟩ := horder.counts hc hcode hks hk
    refine reserve_lt hbase ?_
    simp only [leftOf]
    rw [hks] at hrounds
    rw [hcode, hks]
    exact hrounds.weight_lt
  | @calls s a d fn args is hcode hbody hkonts _ _ =>
    refine reserve_call ?_ ?_ hshallow.le
    · simp only [leftOf, weightWith, hbody, hkonts, Kont.weightOf]
      exact weightOf_lt_runBase p fn
    · simp only [leftOf, weightWith, hcode, Instr.weightOf]
      have hpos := Instr.weight_pos (.call d fn args)
      omega
  | @returns s caller ws v hwaiting _ =>
    rw [hwaiting]
    exact reserve_return hbase

theorem ProgramOk.ends (hp : ProgramOk c cells p) (hc : c.counted = true) (hs : s.Fresh)
    (hm : advance p h (load p s) k = .running m) : ∃ N t, advance p h (load p s) N = .finished t := by
  generalize hleft : reserve (runBase p) (m.active :: m.waiting) = left
  induction left using Nat.strongRecOn generalizing k m with
  | ind left ih =>
    obtain ⟨entry, es, horder⟩ := hp.inOrder hs hm
    obtain ⟨-, hshallow⟩ := hp.shallow hs hm
    cases hstep : step p (h.visit k m) with
    | finished t => exact ⟨k + 1, t, (advance_succ hm).trans hstep⟩
    | running =>
      have hless := (horder.visit (h := h) k).reserve_step hc ⟨hshallow.le, hshallow.opening⟩ hstep
      exact ih _ (hleft ▸ hless) ((advance_succ hm).trans hstep) rfl

end Flow

namespace Program

def falling : Program where
  chains := [⟨[.mk "on_start" [], .mk "fall" []]⟩, ⟨[.definition "fall", .mk "fall" []]⟩]
  blockdefs := [⟨"fall", []⟩]

theorem bareHeads_falling : falling.BareHeads :=
  .of_two (by decide) _ _ _ _

theorem counted_falling : falling.Counted := by
  intro c hc b hb
  simp only [falling, List.mem_cons, List.not_mem_nil, or_false] at hc
  rcases hc with rfl | rfl
  · simp only [List.mem_cons, List.not_mem_nil, or_false] at hb
    rcases hb with rfl | rfl <;> decide
  · simp only [List.mem_cons, List.not_mem_nil, or_false] at hb
    rcases hb with rfl | rfl <;> decide

end Program

end Blockwork
