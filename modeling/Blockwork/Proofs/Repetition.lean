import Mathlib.Algebra.GroupWithZero.Nat
import Blockwork.Proofs.Moves
import Blockwork.Proofs.Sweeping.Rounds
import Blockwork.Proofs.Tracing.Programs

/-! # Counted loops
How often a counted loop runs its body is settled when it is reached: the machine counts down a number of its
own. -/

namespace Blockwork

open List (mem_singleton mem_cons mem_cons_self cons forall_mem_cons append_nil length_append length_cons)

open Machine Instr

/-! ### Code in order -/

def Rising (low high : Reg) (is : List Instr) : Prop :=
  ∃ a b, low ≤ a ∧ b ≤ high ∧ Ascends a is b

def Instr.bodies : Instr → List (List Instr)
  | .rooted body | .ifThen _ body | .countLoop _ body | .foreverLoop body => [body]
  | .whileLoop test _ body => [test, body]
  | _ => []

theorem Instr.bodies_of_isLeaf {i : Instr} (h : i.isLeaf = true) : i.bodies = [] := by
  cases i <;> first | rfl | cases h

def Kont.codes : Kont → List (List Instr)
  | .next rest | .closeRoots rest => [rest]
  | .countLoop _ body rest => [body, rest]
  | .whileTest test _ body rest | .whileBody test _ body rest => [test, body, rest]
  | .foreverLoop body => [body]

section Order

variable {code : List Instr} {inner base : List Kont}

theorem Ascends.tail (h : Ascends a (i :: is) b) : ∃ c, a ≤ c ∧ Ascends c is b := by
  cases h with
  | leaf _ hd h =>
    refine ⟨_, ?_, h⟩
    unfold after
    cases hdst : i.dst? with
    | none => exact Nat.le_refl a
    | some d => exact Nat.le_succ_of_le (hd d hdst)
  | rooted hbody h => exact ⟨_, hbody.le, h⟩
  | ifThen hle _ hbody h => exact ⟨_, Nat.le_trans hle hbody.le, h⟩
  | countLoop hle _ hbody hd h =>
    refine ⟨_, Nat.le_trans hle hbody.le, .leaf rfl (fun d hdst => ?_) h⟩
    obtain rfl := Option.some.inj hdst
    exact hd
  | whileLoop htest hbody h => exact ⟨_, Nat.le_trans htest.le hbody.le, h⟩
  | foreverLoop hbody h => exact ⟨_, hbody.le, h⟩

theorem Ascends.body (h : Ascends a (i :: is) b) (hbody : inside ∈ i.bodies) : Rising a b inside := by
  cases h with
  | leaf hi =>
    rw [bodies_of_isLeaf hi] at hbody
    cases hbody
  | rooted h hrest =>
    obtain rfl := mem_singleton.mp hbody
    exact ⟨_, _, Nat.le_refl a, hrest.le, h⟩
  | ifThen hle _ h hrest =>
    obtain rfl := mem_singleton.mp hbody
    exact ⟨_, _, hle, hrest.le, h⟩
  | countLoop hle _ h hd hrest =>
    obtain rfl := mem_singleton.mp hbody
    exact ⟨_, _, hle, Nat.le_trans hd (Nat.le_of_succ_le hrest.le), h⟩
  | whileLoop htest h hrest =>
    rcases mem_cons.mp hbody with rfl | hbody
    · exact ⟨_, _, Nat.le_refl a, Nat.le_trans h.le hrest.le, htest⟩
    · obtain rfl := mem_singleton.mp hbody
      exact ⟨_, _, htest.le, hrest.le, h⟩
  | foreverLoop h hrest =>
    obtain rfl := mem_singleton.mp hbody
    exact ⟨_, _, Nat.le_refl a, hrest.le, h⟩

theorem Ascends.dst (h : Ascends a (i :: is) b) (hd : i.dst? = some d) : a ≤ d ∧ d < b := by
  cases h with
  | leaf _ hle h =>
    rw [after, hd] at h
    exact ⟨hle d hd, h.le⟩
  | _ => cases hd

structure Orderly (low high : Reg) (code : List Instr) (ks : List Kont) : Prop where
  code : Rising low high code
  konts : ∀ k ∈ ks, ∀ is ∈ k.codes, Rising low high is

namespace Orderly

theorem tail (h : Orderly low high (i :: is) ks) : Orderly low high is ks := by
  obtain ⟨a, b, ha, hb, hascends⟩ := h.code
  obtain ⟨c, hc, htail⟩ := hascends.tail
  exact ⟨⟨c, b, Nat.le_trans ha hc, hb, htail⟩, h.konts⟩

theorem body (h : Orderly low high (i :: is) ks) (hbody : inside ∈ i.bodies) : Rising low high inside := by
  obtain ⟨a, b, ha, hb, hascends⟩ := h.code
  obtain ⟨a', b', ha', hb', hrising⟩ := hascends.body hbody
  exact ⟨a', b', Nat.le_trans ha ha', Nat.le_trans hb' hb, hrising⟩

theorem enter (h : Orderly low high (i :: is) ks) (hbody : inside ∈ i.bodies)
    (hk : ∀ js ∈ k.codes, js ∈ is :: i.bodies) : Orderly low high inside (k :: ks) := by
  refine ⟨h.body hbody, fun k' hk' js hjs => ?_⟩
  rcases mem_cons.mp hk' with rfl | hk'
  · rcases mem_cons.mp (hk js hjs) with rfl | hin
    · exact h.tail.code
    · exact h.body hin
  · exact h.konts k' hk' js hjs

theorem leave (h : Orderly low high code (k :: ks)) (hrest : is ∈ k.codes) : Orderly low high is ks :=
  ⟨h.konts k mem_cons_self is hrest, fun k' hk' => h.konts k' (List.mem_cons_of_mem k hk')⟩

theorem again (h : Orderly low high code (k :: ks)) (hbody : inside ∈ k.codes) (hk : ∀ js ∈ k'.codes, js ∈ k.codes) :
    Orderly low high inside (k' :: ks) := by
  refine ⟨h.konts k mem_cons_self inside hbody, fun k'' hk'' js hjs => ?_⟩
  rcases mem_cons.mp hk'' with rfl | hk''
  · exact h.konts k mem_cons_self js (hk js hjs)
  · exact h.konts k'' (List.mem_cons_of_mem k hk'') js hjs

end Orderly

theorem cons_of_append (hin : inner ≠ [] ∨ base = []) (hks : inner ++ base = k :: ks) :
    ∃ inner', inner = k :: inner' ∧ ks = inner' ++ base := by
  cases inner with
  | nil =>
    rcases hin with hin | rfl
    · exact absurd rfl hin
    · cases hks
  | cons k' inner' =>
    obtain ⟨rfl, rfl⟩ := cons.inj hks
    exact ⟨inner', rfl, rfl⟩

theorem Machine.Moves.orderly (h : Machine.Moves code (inner ++ base) code' ks')
    (hin : code = [] → inner ≠ [] ∨ base = []) (ho : Orderly low high code inner) :
    ∃ inner', ks' = inner' ++ base ∧ Orderly low high code' inner' := by
  generalize hks : inner ++ base = ks at h
  cases h with
  | plain | asked | skip | none => exact ⟨inner, hks.symm, ho.tail⟩
  | rooted | branch | count | test | forever =>
    subst hks
    refine ⟨_ :: inner, rfl, ho.enter ?_ ?_⟩ <;> simp [bodies, Kont.codes]
  | next | close | fails =>
    obtain ⟨inner', rfl, rfl⟩ := cons_of_append (hin rfl) hks
    exact ⟨inner', rfl, ho.leave (by simp [Kont.codes])⟩
  | holds =>
    obtain ⟨inner', rfl, rfl⟩ := cons_of_append (hin rfl) hks
    refine ⟨_ :: inner', rfl, ho.again ?_ ?_⟩ <;> simp [Kont.codes]

theorem Machine.Rounds.orderly (h : Machine.Rounds (inner ++ base) code' ks')
    (hin : inner ≠ [] ∨ base = []) (ho : Orderly low high [] inner) :
    ∃ inner', ks' = inner' ++ base ∧ Orderly low high code' inner' := by
  generalize hks : inner ++ base = ks at h
  cases h with
  | again | retest | forever =>
    obtain ⟨inner', rfl, rfl⟩ := cons_of_append hin hks
    refine ⟨_ :: inner', rfl, ho.again ?_ ?_⟩ <;> simp [Kont.codes]
  | done =>
    obtain ⟨inner', rfl, rfl⟩ := cons_of_append hin hks
    exact ⟨inner', rfl, ho.leave (by simp [Kont.codes])⟩

end Order

def Activation.InOrder (a : Activation) : Prop :=
  Orderly 0 a.regs.size a.code a.konts

theorem Activation.InOrder.set {a : Activation} (h : a.InOrder) (r : Reg) (v : Value) : (a.set r v).InOrder := by
  unfold InOrder
  rw [a.size_regs_set]
  exact h

def ProgramCode.InOrder (p : ProgramCode) : Prop :=
  ∀ f, f = p.main ∨ f ∈ p.functions.toList → Ascends 0 f.code f.registers

theorem ProgramCode.InOrder.getD {p : ProgramCode} (hp : p.InOrder) (i : Nat) :
    Ascends 0 (p.functions.getD i default).code (p.functions.getD i default).registers := by
  rw [Array.getD_eq_getD_getElem?]
  cases hf : p.functions[i]? with
  | none => exact .refl 0
  | some f => exact hp f (.inr (Array.mem_toList_iff.mpr (Array.mem_of_getElem? hf)))

theorem Machine.inOrder_step (hp : p.InOrder) (h : ∀ a ∈ m.active :: m.waiting, a.InOrder)
    (hstep : step p m = .running m') : ∀ a ∈ m'.active :: m'.waiting, a.InOrder := by
  have hactive := h _ mem_cons_self
  have hwaiting : ∀ a ∈ m.waiting, a.InOrder := fun a ha => h a (List.mem_cons_of_mem _ ha)
  have hdoes := does p m
  rw [hstep] at hdoes
  cases hdoes with
  | moves hmoves _ hgoes =>
    refine forall_mem_cons.mpr ⟨?_, hwaiting⟩
    rw [← append_nil m.active.konts] at hmoves
    obtain ⟨inner, hinner, ho⟩ := hmoves.orderly (fun _ => .inr rfl) hactive
    rw [Activation.InOrder, hgoes.size, hinner, append_nil]
    exact ho
  | rounds hcode hrounds hgoes =>
    refine forall_mem_cons.mpr ⟨?_, hwaiting⟩
    rw [← append_nil m.active.konts] at hrounds
    rw [Activation.InOrder, hcode] at hactive
    obtain ⟨inner, hinner, ho⟩ := hrounds.orderly (.inr rfl) hactive
    rw [Activation.InOrder, hgoes.size, hinner, append_nil]
    exact ho
  | calls hcode hbody hkonts hstart =>
    refine forall_mem_cons.mpr ⟨⟨⟨0, _, Nat.le_refl 0, hstart.2, ?_⟩, ?_⟩,
      forall_mem_cons.mpr ⟨?_, hwaiting⟩⟩
    · rw [hbody]
      exact hp.getD _
    · rw [hkonts]
      exact List.forall_mem_nil _
    · rw [Activation.InOrder, hcode] at hactive
      exact hactive.tail
  | returns hcallers =>
    rw [hcallers] at hwaiting
    obtain ⟨hcaller, hothers⟩ := forall_mem_cons.mp hwaiting
    exact forall_mem_cons.mpr ⟨hcaller.set _ _, hothers⟩

theorem Machine.inOrder (hp : p.InOrder) (hm : advance p h (load p s) n = .running m) :
    ∀ a ∈ m.active :: m.waiting, a.InOrder := by
  refine advance_invariant (P := fun m => ∀ a ∈ m.active :: m.waiting, a.InOrder) ?_
    (fun n m m' hm hstep => inOrder_step (m := h.visit n m) hp hm hstep) hm
  refine List.forall_mem_singleton.mpr ⟨⟨0, _, Nat.le_refl 0, ?_, hp _ (.inl rfl)⟩, List.forall_mem_nil _⟩
  simp [load, start]

/-! ### Inside a loop -/

/-- A function that was `a` runs code that leaves the registers below `low` as they are: `inner` are the continuations
of that code, in front of those of `base`. -/
structure Activation.Keeps (a : Activation) (low : Reg) (base : List Kont) (t : Activation) (inner : List Kont) :
    Prop where
  konts : t.konts = inner ++ base
  code : Orderly low t.regs.size t.code inner
  size : t.regs.size = a.regs.size
  kept : ∀ q < low, t.get q = a.get q

/-- The machine is in code that the running function of `m₀` came to, or in functions called from there. -/
def Machine.Within (m₀ : Machine) (low : Reg) (base : List Kont) (m : Machine) : Prop :=
  ∃ above t inner, m.active :: m.waiting = above ++ t :: m₀.waiting ∧ (∀ a ∈ above.getLast?, low ≤ a.dst) ∧
    m₀.active.Keeps low base t inner

/-- The machine is inside the body of a loop that was reached in `m₀`, with `left` counted down to. -/
def Machine.Inside (m₀ : Machine) (r : Reg) (body rest : List Instr) (left : Int64) (m : Machine) : Prop :=
  m₀.Within (r + 1) (.countLoop left body rest :: m₀.active.konts) m

def Machine.endsRound (m₀ m : Machine) : Bool :=
  m.waiting.length == m₀.waiting.length && m.active.konts.length == m₀.active.konts.length + 1 && m.active.code.isEmpty

/-- The loop that was reached in `m₀` has been left, and what follows it is about to run. -/
structure Machine.Leaves (m₀ : Machine) (r : Reg) (rest : List Instr) (m : Machine) : Prop where
  waiting : m.waiting = m₀.waiting
  konts : m.active.konts = m₀.active.konts
  code : m.active.code = rest
  count : m.active.get r = m₀.active.get r
  size : m.active.regs.size = m₀.active.regs.size

section Loop

variable {m₀ : Machine} {a : Activation} {inner : List Kont}

theorem Orderly.writes (h : Orderly low high a.code ks) (hd : a.writes = some d) : low ≤ d := by
  obtain ⟨c, e, hc, -, hascends⟩ := h.code
  unfold Activation.writes at hd
  cases hcode : a.code with
  | nil =>
    rw [hcode] at hd
    cases hd
  | cons =>
    rw [hcode] at hd hascends
    exact Nat.le_trans hc (hascends.dst hd).1

namespace Activation.Keeps

variable {base : List Kont}

theorem later (h : a.Keeps low base t inner) (hgoes : t.Goes t') (hkonts : t'.konts = inner' ++ base)
    (hcode : Orderly low t.regs.size t'.code inner') : a.Keeps low base t' inner' := by
  refine ⟨hkonts, hgoes.size ▸ hcode, hgoes.size.trans h.size, fun q hq => ?_⟩
  exact (hgoes.get q fun hw => Nat.not_lt_of_le (h.code.writes hw) hq).trans (h.kept q hq)

theorem set (h : a.Keeps low base t inner) (hd : low ≤ d) (v : Value) : a.Keeps low base (t.set d v) inner where
  konts := h.konts
  code := by
    rw [t.size_regs_set]
    exact h.code
  size := (t.size_regs_set d v).trans h.size
  kept := fun q hq => (t.get_set_ne d q v (Nat.ne_of_lt (Nat.lt_of_lt_of_le hq hd))).trans (h.kept q hq)

end Activation.Keeps

namespace Machine

namespace Inside

theorem deeper (h : m₀.Inside r body rest left m) : m.Deeper m₀.waiting.length m₀.active.konts.length := by
  obtain ⟨above, t, inner, hstack, -, hkeeps⟩ := h
  cases above with
  | nil =>
    obtain ⟨rfl, hwaiting⟩ := cons.inj hstack
    refine Or.inr ⟨congrArg List.length hwaiting, ?_⟩
    rw [hkeeps.konts, length_append, length_cons]
    omega
  | cons b above =>
    have hwaiting : m.waiting = above ++ t :: m₀.waiting := (cons.inj hstack).2
    refine Or.inl ?_
    rw [hwaiting, length_append, length_cons]
    omega

theorem atEnd (h : m₀.Inside r body rest left m) (hend : m₀.endsRound m = true) :
    m.waiting = m₀.waiting ∧ m.active.code = [] ∧ m₀.active.Keeps (r + 1) (.countLoop left body rest :: m₀.active.konts) m.active [] := by
  simp only [endsRound, Bool.and_eq_true, beq_iff_eq, List.isEmpty_iff] at hend
  obtain ⟨⟨hwaiting, hkonts⟩, hcode⟩ := hend
  obtain ⟨above, t, inner, hstack, -, hkeeps⟩ := h
  cases above with
  | nil =>
    obtain ⟨rfl, hsame⟩ := cons.inj hstack
    cases inner with
    | nil => exact ⟨hsame, hcode, hkeeps⟩
    | cons =>
      rw [hkeeps.konts, length_append, length_cons, length_cons] at hkonts
      omega
  | cons b above =>
    have hmore : m.waiting = above ++ t :: m₀.waiting := (cons.inj hstack).2
    rw [hmore, length_append, length_cons] at hwaiting
    omega

end Inside

/-- A step stays within the code, or leaves the function that came to it, unless the code has come to its end. -/
theorem Within.step {base : List Kont} (h : m₀.Within low base m)
    (hend : m.waiting = m₀.waiting → m.active.code = [] → m.active.konts = base → base = [])
    (hstep : Machine.step p m = .running m') : m₀.Within low base m' ∨ m'.waiting.length < m₀.waiting.length := by
  obtain ⟨above, t, inner, hstack, hlast, hkeeps⟩ := h
  have hnone : ∀ a ∈ ([] : List Activation).getLast?, low ≤ a.dst := fun a ha => by cases ha
  have hdoes := does p m
  rw [hstep] at hdoes
  cases above with
  | nil =>
    -- the function is the one that runs
    obtain ⟨rfl, hwaiting⟩ := cons.inj hstack
    have hmore : m.active.code = [] → inner ≠ [] ∨ base = [] := by
      intro hcode
      by_cases hinner : inner = []
      · exact .inr (hend hwaiting hcode (by rw [hkeeps.konts, hinner, List.nil_append]))
      · exact .inl hinner
    cases hdoes with
    | moves hmoves _ hgoes =>
      rw [hkeeps.konts] at hmoves
      obtain ⟨inner', hkonts, hcode⟩ := hmoves.orderly hmore hkeeps.code
      exact Or.inl ⟨[], _, inner', congrArg (_ :: ·) hwaiting, hnone, hkeeps.later hgoes hkonts hcode⟩
    | rounds hcode hrounds hgoes =>
      rw [hkeeps.konts] at hrounds
      obtain ⟨inner', hkonts, hcode⟩ := hrounds.orderly (hmore hcode) (hcode ▸ hkeeps.code)
      exact Or.inl ⟨[], _, inner', congrArg (_ :: ·) hwaiting, hnone, hkeeps.later hgoes hkonts hcode⟩
    | @calls s b d fn args is hcode _ _ hstart =>
      have hdst : low ≤ b.dst := by
        rw [hstart.1]
        refine hkeeps.code.writes ?_
        rw [Activation.writes, hcode]
        rfl
      refine Or.inl ⟨[b], { m.active with code := is }, inner, congrArg (_ :: _ :: ·) hwaiting, fun c hc => ?_, ?_⟩
      · obtain rfl := Option.some.inj hc
        exact hdst
      · have hcode' := hkeeps.code
        rw [hcode] at hcode'
        exact ⟨hkeeps.konts, hcode'.tail, hkeeps.size, hkeeps.kept⟩
    | returns hcallers =>
      refine Or.inr ?_
      rw [← hwaiting, hcallers]
      exact Nat.lt_succ_self _
  | cons b above =>
    -- it waits for the one that runs
    obtain ⟨rfl, hwaiting⟩ := cons.inj hstack
    have hkept : ∀ c : Activation, c.dst = m.active.dst → ∀ e ∈ (c :: above).getLast?, low ≤ e.dst := by
      intro c hc e he
      cases above with
      | nil =>
        have he : some c = some e := he
        obtain rfl := Option.some.inj he
        rw [hc]
        exact hlast _ rfl
      | cons => exact hlast e he
    cases hdoes with
    | moves _ _ hgoes | rounds _ _ hgoes =>
      exact Or.inl ⟨_ :: above, t, inner, congrArg (_ :: ·) hwaiting, hkept _ hgoes.dst, hkeeps⟩
    | @calls s c d fn args is hcode _ _ _ =>
      refine Or.inl ⟨c :: { m.active with code := is } :: above, t, inner, congrArg (_ :: _ :: ·) hwaiting, ?_, hkeeps⟩
      exact hkept { m.active with code := is } rfl
    | @returns s caller ws v hcallers =>
      rw [hcallers] at hwaiting
      cases above with
      | nil =>
        obtain ⟨rfl, rfl⟩ := cons.inj hwaiting
        exact Or.inl ⟨[], _, inner, rfl, hnone, hkeeps.set (hlast _ rfl) v⟩
      | cons b above =>
        obtain ⟨rfl, rfl⟩ := cons.inj hwaiting
        refine Or.inl ⟨caller.set m.active.dst v :: above, t, inner, rfl, fun e he => ?_, hkeeps⟩
        cases above with
        | nil =>
          have he : some (caller.set m.active.dst v) = some e := he
          obtain rfl := Option.some.inj he
          exact hlast caller rfl
        | cons => exact hlast e he

theorem Inside.step (h : m₀.Inside r body rest left m) (hend : m₀.endsRound m = false)
    (hstep : Machine.step p m = .running m') :
    m₀.Inside r body rest left m' ∨ m'.waiting.length < m₀.waiting.length := by
  refine Within.step h (fun hwaiting hcode hkonts => ?_) hstep
  simp [endsRound, hwaiting, hcode, hkonts] at hend

end Machine

/-! ### Rounds -/

theorem roundsLeft_done (h : n - 1 < 0) : roundsLeft n = 0 := by
  have hneg : (n - 1).toInt < (0 : Int64).toInt := Int64.lt_iff_toInt_lt.mp h
  have hzero : (0 : Int64).toInt = 0 := rfl
  have hone : (1 : Int64).toInt = 1 := rfl
  have hle := Int64.le_toInt n
  have hlt := Int64.toInt_lt n
  have hsub := Int64.toInt_sub n 1
  rw [hone, Int.bmod_def] at hsub
  unfold roundsLeft
  split
  next hn =>
    have hmin : n.toInt = -9223372036854775808 := by
      rw [hn]
      exact Int64.toInt_minValue
    omega
  next => omega

/-- What the start of a round leads to, with `left` counted down to: the loop is left, or its body is entered. -/
def Machine.Begins (m₀ : Machine) (r : Reg) (body rest : List Instr) (left : Int64) (m : Machine) : Prop :=
  roundsLeft left = 0 ∧ m₀.Leaves r rest m ∨
    roundsLeft left = roundsLeft (left - 1) + 1 ∧ m.active.code = body ∧ m₀.Inside r body rest (left - 1) m

theorem Machine.Leaves.not_deeper (h : m₀.Leaves r rest m) : ¬ m.Deeper m₀.waiting.length m₀.active.konts.length := by
  unfold Deeper
  rw [h.waiting, h.konts]
  omega

theorem Machine.begins_countRound (hbody : Rising (r + 1) m₀.active.regs.size body)
    (hkonts : a.konts = m₀.active.konts) (hsize : a.regs.size = m₀.active.regs.size)
    (hkept : ∀ q < r + 1, a.get q = m₀.active.get q) :
    m₀.Begins r body rest left ⟨s, a.countRound left body rest, m₀.waiting⟩ := by
  unfold Activation.countRound
  simp only
  split
  next hdone => exact Or.inl ⟨roundsLeft_done hdone, rfl, hkonts, rfl, hkept r (Nat.lt_succ_self r), hsize⟩
  next hmore =>
    refine Or.inr ⟨roundsLeft_succ hmore, rfl, [], _, [], rfl, fun a ha => (by cases ha), ?_, ?_, hsize, hkept⟩
    · exact congrArg (_ :: ·) hkonts
    · refine ⟨?_, List.forall_mem_nil _⟩
      show Rising (r + 1) a.regs.size body
      rw [hsize]
      exact hbody

theorem Machine.begins_first (hcode : m₀.active.code = .countLoop r body :: rest)
    (hbody : Rising (r + 1) m₀.active.regs.size body) (h : Host) (n : Nat) :
    ∃ m', step p (h.visit n m₀) = .running m' ∧ m₀.Begins r body rest (m₀.active.get r).toInteger m' := by
  obtain ⟨s, ⟨code, konts, regs, base, dst⟩, ws⟩ := m₀
  cases hcode
  exact ⟨_, rfl, begins_countRound hbody rfl rfl fun _ _ => rfl⟩

theorem Machine.Inside.begins_next (hin : m₀.Inside r body rest left m) (hend : m₀.endsRound m = true)
    (hbody : Rising (r + 1) m₀.active.regs.size body) (h : Host) (n : Nat) :
    ∃ m', Machine.step p (h.visit n m) = .running m' ∧ m₀.Begins r body rest left m' := by
  obtain ⟨hwaiting, hcode, hkeeps⟩ := hin.atEnd hend
  obtain ⟨s, ⟨code, konts, regs, base, dst⟩, ws⟩ := m
  have hkonts : konts = .countLoop left body rest :: m₀.active.konts := hkeeps.konts
  cases hcode
  cases hkonts
  cases hwaiting
  exact ⟨_, rfl, begins_countRound hbody rfl hkeeps.size hkeeps.kept⟩

end Loop

namespace Machine

/-- How many rounds of the loop that was reached in `m₀`, at step `n`, end within the next `k` steps. -/
def roundsDone (p : ProgramCode) (h : Host) (m : Machine) (n : Nat) (m₀ : Machine) : Nat → Nat
  | 0 => 0
  | k + 1 => roundsDone p h m n m₀ k + if (advance p h m (n + k + 1)).machine?.any m₀.endsRound then 1 else 0

/-- The body of the loop that was reached in `m₀`, at step `n`, is not left within the next `k` steps. -/
def StaysInside (p : ProgramCode) (h : Host) (m : Machine) (n : Nat) (m₀ : Machine) (k : Nat) : Prop :=
  ∀ j < k, ∀ mj, advance p h m (n + j + 1) = .running mj → mj.Deeper m₀.waiting.length m₀.active.konts.length

section Rounds

variable {m₀ : Machine}

theorem roundsDone_succ (hm : advance p h m (n + k + 1) = .running m') :
    roundsDone p h m n m₀ (k + 1) = roundsDone p h m n m₀ k + if m₀.endsRound m' then 1 else 0 := by
  rw [roundsDone, hm]
  rfl

theorem Begins.inside (hbegins : m₀.Begins r body rest left m')
    (hdeep : m'.Deeper m₀.waiting.length m₀.active.konts.length) :
    roundsLeft left = roundsLeft (left - 1) + 1 ∧ m₀.Inside r body rest (left - 1) m' := by
  rcases hbegins with ⟨-, hleaves⟩ | ⟨hleft, -, hinside⟩
  · exact absurd hdeep hleaves.not_deeper
  · exact ⟨hleft, hinside⟩

theorem exists_inside (hm : advance p h m n = .running m₀) (hcode : m₀.active.code = .countLoop r body :: rest)
    (hbody : Rising (r + 1) m₀.active.regs.size body) (hk : advance p h m (n + k + 1) = .running m')
    (hstays : StaysInside p h m n m₀ (k + 1)) :
    ∃ left, m₀.Inside r body rest left m' ∧ roundsDone p h m n m₀ (k + 1) + roundsLeft left +
      (if m₀.endsRound m' then 0 else 1) = roundsLeft (m₀.active.get r).toInteger := by
  induction k generalizing m' with
  | zero =>
    obtain ⟨m₁, hstep, hbegins⟩ := begins_first hcode hbody h n
    cases (hstep.symm.trans (advance_succ hm).symm).trans hk
    obtain ⟨hleft, hinside⟩ := hbegins.inside (hstays 0 (Nat.lt_succ_self 0) _ hk)
    refine ⟨_, hinside, ?_⟩
    rw [roundsDone_succ hk, roundsDone, hleft]
    split <;> omega
  | succ k ih =>
    obtain ⟨mk, hmk, hstep⟩ := running_succ hk
    obtain ⟨left, hinside, hrounds⟩ := ih hmk fun j hj => hstays j (Nat.lt_succ_of_lt hj)
    have hdeep := hstays (k + 1) (Nat.lt_succ_self _) m' hk
    cases hend : m₀.endsRound mk with
    | true =>
      obtain ⟨m₁, hnext, hbegins⟩ := hinside.begins_next (p := p) hend hbody h (n + k + 1)
      cases hnext.symm.trans hstep
      obtain ⟨hleft, hinside'⟩ := hbegins.inside hdeep
      refine ⟨_, hinside', ?_⟩
      rw [roundsDone_succ hk, ← hrounds, hleft, hend]
      simp only [if_true]
      split <;> omega
    | false =>
      have hinside' : m₀.Inside r body rest left m' := by
        rcases hinside.step (m := h.visit (n + k + 1) mk) hend hstep with hinside' | hless
        · exact hinside'
        · rcases hdeep with hmore | ⟨hsame, -⟩
          · exact absurd hmore (Nat.lt_asymm hless)
          · exact absurd hsame (Nat.ne_of_lt hless)
      refine ⟨left, hinside', ?_⟩
      rw [roundsDone_succ hk, ← hrounds, hend]
      simp only [Bool.false_eq_true, if_false]
      split <;> omega

/-- Whether a loop that is reached at step `n` with a count has done some rounds after `k` more steps. -/
def findsRounds (p : ProgramCode) (h : Host) (m : Machine) (n k : Nat) (count : Int64) (done : Nat) : Bool :=
  match advance p h m n, advance p h m (n + k) with
  | .running m₀, .running last =>
    match m₀.active.code with
    | .countLoop r _ :: _ =>
      (m₀.active.get r).toInteger == count && roundsDone p h m n m₀ k == done && m₀.endsRound last &&
        (List.range k).all fun j => (advance p h m (n + j + 1)).machine?.all fun mj =>
          decide (mj.Deeper m₀.waiting.length m₀.active.konts.length)
    | _ => false
  | _, _ => false

theorem of_findsRounds (hfinds : findsRounds p h m n k count done = true) :
    ∃ m₀ mk r body rest, advance p h m n = .running m₀ ∧ m₀.active.code = .countLoop r body :: rest ∧
      (m₀.active.get r).toInteger = count ∧ advance p h m (n + k) = .running mk ∧ m₀.endsRound mk = true ∧
      StaysInside p h m n m₀ k ∧ roundsDone p h m n m₀ k = done := by
  unfold findsRounds at hfinds
  split at hfinds
  case h_2 => cases hfinds
  case h_1 m₀ mk hm hmk =>
    split at hfinds
    case h_2 => cases hfinds
    case h_1 r body rest hcode =>
      simp only [Bool.and_eq_true, beq_iff_eq, List.all_eq_true, List.mem_range] at hfinds
      obtain ⟨⟨⟨hcount, hdone⟩, hend⟩, hstays⟩ := hfinds
      refine ⟨m₀, mk, r, body, rest, hm, hcode, hcount, hmk, hend, fun j hj mj hmj => ?_, hdone⟩
      have hdeep := hstays j hj
      rw [hmj] at hdeep
      exact of_decide_eq_true hdeep

end Rounds

end Machine

/-! ### Compiled programs -/

theorem roundsLeft_eq (n : Int64) : roundsLeft n = if n = Int64.minValue then 2 ^ 63 else (max n.toInt 0).toNat := by
  unfold roundsLeft
  split
  · rfl
  · omega

theorem Ascends.counts {body : List Instr} (h : Ascends a (.countLoop r body :: rest) b) :
    ∃ flag rest', rest = .unary flag .isPositive r :: rest' ∧ flag < b ∧ Rising (r + 1) b body := by
  cases h with
  | leaf hi => cases hi
  | countLoop _ hr hbody hd hrest =>
    exact ⟨_, _, rfl, hrest.le, _, _, hr, Nat.le_trans hd (Nat.le_of_succ_le hrest.le), hbody⟩

theorem Machine.step_isPositive (hcode : m.active.code = .unary flag .isPositive r :: rest)
    (hflag : flag < m.active.regs.size) (h : Host) (n : Nat) :
    ∃ m', step p (h.visit n m) = .running m' ∧ m'.active.code = rest ∧
      m'.active.get flag = .bool (0 < (m.active.get r).toInteger) := by
  obtain ⟨s, ⟨code, konts, regs, base, dst⟩, ws⟩ := m
  cases hcode
  exact ⟨_, rfl, rfl, Activation.get_set_self _ flag _ hflag⟩

theorem Machine.Begins.turn {m₀ mk : Machine}
    (hbegins : m₀.Begins r body (.unary flag .isPositive r :: rest) left m') (hmk : advance p h m i = .running mk)
    (hstep : step p (h.visit i mk) = .running m') (hflag : flag < m₀.active.regs.size)
    (htotal : done + roundsLeft left = total) : ∃ m', advance p h m (i + 1) = .running m' ∧
      (done < total ∧ m'.active.code = body ∧ m'.Deeper m₀.waiting.length m₀.active.konts.length ∨
        done = total ∧ m₀.Leaves r (.unary flag .isPositive r :: rest) m' ∧
          ∃ m'', advance p h m (i + 2) = .running m'' ∧ m''.active.code = rest ∧
            m''.active.get flag = .bool (0 < (m₀.active.get r).toInteger)) := by
  have hm' := (advance_succ hmk).trans hstep
  refine ⟨m', hm', ?_⟩
  rcases hbegins with ⟨hnone, hleaves⟩ | ⟨hmore, henters, hinside⟩
  · refine Or.inr ⟨by omega, hleaves, ?_⟩
    have hin : flag < m'.active.regs.size := by rwa [hleaves.size]
    obtain ⟨m'', hnext, hrest, hget⟩ := step_isPositive (p := p) hleaves.code hin h (i + 1)
    rw [hleaves.count] at hget
    exact ⟨m'', (advance_succ hm').trans hnext, hrest, hget⟩
  · exact Or.inl ⟨by omega, henters, hinside.deeper⟩

theorem Program.compile_inOrder {p : Program} (hcode : p.compile.result = .ok code) : code.InOrder := by
  obtain ⟨Y⟩ := Tracing.compile_layout hcode
  rintro f (rfl | hf)
  · obtain ⟨W, hmain⟩ := Y.main
    exact hmain.ascends
  · obtain ⟨i, hi, hget⟩ := List.getElem_of_mem hf
    obtain ⟨n, hn⟩ := Y.defined i hi
    obtain ⟨f', W, hf', hdescribed⟩ := Y.functions i n hn
    rw [← Array.getElem?_toList, List.getElem?_eq_getElem hi, hget] at hf'
    obtain rfl := Option.some.inj hf'
    exact hdescribed.ascends.lower (Nat.zero_le _)

theorem closeScope_counted (hscope : s.scopes.control.back? = some ⟨opener, .body (.countLoop r)⟩)
    (hrun : Lower.closeScope loc env s = .ok v t) :
    ∃ front body flag last, t.code.toList = front ++ .countLoop r body :: .unary flag .isPositive r :: last ∧
      v = .reg .bool flag := by
  obtain ⟨opener', body, frame, code, s₁, s₂, hback, -, -, hclose, hsettle⟩ := Flow.closeScope_iff.mp hrun
  cases hscope.symm.trans hback
  cases hclose
  have hlays : Lays true true (Lower.settle opener) := Lower.settle_lays opener
  obtain ⟨last, hlast, -⟩ := hlays.laid hsettle
  exact ⟨s₁.code.toList, code, s₁.nextReg, last, by simp [hlast], rfl⟩

namespace Program

/-- A counted loop of a compiled program, whatever its body and the functions called there do: as long as the body is
not left by a return, each of its rounds ends at the loop, and it begins another one exactly if fewer have ended than
the count says, taken once when the loop was reached; the least count of all stands for `2 ^ 63` rounds. What follows
the loop then finds in a register whether the count was positive, and this is what a counted scope leaves for the
block behind it. -/
theorem counted_loops {p : Program} (hcode : p.compile.result = .ok code)
    (hm : advance code h (load code s) n = .running m) (hloop : m.active.code = .countLoop r body :: rest) :
    let count := (m.active.get r).toInteger
    let rounds := if count = Int64.minValue then 2 ^ 63 else (max count.toInt 0).toNat
    let done := roundsDone code h (load code s) n m
    let inside := fun m' : Machine => m'.Deeper m.waiting.length m.active.konts.length
    (∃ flag rest', rest = .unary flag .isPositive r :: rest' ∧
      ∀ k mk, advance code h (load code s) (n + k) = .running mk → StaysInside code h (load code s) n m k →
        done k ≤ rounds ∧
        (k = 0 ∨ m.endsRound mk = true → ∃ m', advance code h (load code s) (n + k + 1) = .running m' ∧
          (done k < rounds ∧ m'.active.code = body ∧ inside m' ∨
            done k = rounds ∧ m.Leaves r rest m' ∧ ∃ m'', advance code h (load code s) (n + k + 2) = .running m'' ∧
              m''.active.code = rest' ∧ m''.active.get flag = .bool (0 < count))) ∧
        (k ≠ 0 → m.endsRound mk = false → ∀ m', advance code h (load code s) (n + k + 1) = .running m' →
          inside m' ∨ m'.waiting.length < m.waiting.length)) ∧
    ∀ env (s t : LowerState) loc opener v r, s.scopes.control.back? = some ⟨opener, .body (.countLoop r)⟩ →
      Lower.closeScope loc env s = .ok v t → ∃ front body flag last, t.code.toList =
        front ++ .countLoop r body :: .unary flag .isPositive r :: last ∧ v = .reg .bool flag := by
  intro count rounds done inside
  refine ⟨?_, fun env s t loc opener v r hscope hrun => closeScope_counted hscope hrun⟩
  have hrounds : roundsLeft count = rounds := roundsLeft_eq count
  have horder := Machine.inOrder (compile_inOrder hcode) hm _ List.mem_cons_self
  obtain ⟨c, e, -, he, hascends⟩ := horder.code
  rw [hloop] at hascends
  obtain ⟨flag, rest', rfl, hflag, c', e', hc', he', hbody⟩ := hascends.counts
  have hrising : Rising (r + 1) m.active.regs.size body := ⟨c', e', hc', Nat.le_trans he' he, hbody⟩
  have hsize : flag < m.active.regs.size := Nat.lt_of_lt_of_le hflag he
  refine ⟨flag, rest', rfl, fun k mk hmk hstays => ?_⟩
  cases k with
  | zero =>
    cases hm.symm.trans hmk
    refine ⟨Nat.zero_le _, fun _ => ?_, fun hk => absurd rfl hk⟩
    obtain ⟨m', hstep, hbegins⟩ := begins_first (p := code) hloop hrising h n
    have htotal : done 0 + roundsLeft count = rounds := (Nat.zero_add _).trans hrounds
    exact hbegins.turn hmk hstep hsize htotal
  | succ k =>
    obtain ⟨left, hinside, htotal⟩ := exists_inside hm hloop hrising hmk hstays
    have htotal : done (k + 1) + roundsLeft left + (if m.endsRound mk then 0 else 1) = rounds := htotal.trans hrounds
    refine ⟨by omega, fun hend => ?_, fun _ hend m' hm' => ?_⟩
    · have hend : m.endsRound mk = true := hend.resolve_left (Nat.succ_ne_zero k)
      obtain ⟨m', hstep, hbegins⟩ := hinside.begins_next (p := code) hend hrising h (n + (k + 1))
      rw [hend] at htotal
      exact hbegins.turn hmk hstep hsize htotal
    · have hstep : Machine.step code (h.visit (n + (k + 1)) mk) = .running m' := (advance_succ hmk).symm.trans hm'
      rcases hinside.step (m := h.visit (n + (k + 1)) mk) hend hstep with hinside' | hless
      · exact Or.inl hinside'.deeper
      · exact Or.inr hless

/-- A loop whose body calls a function and changes the variable that the count was read from. -/
def widening : Program where
  chains :=
    [⟨[.mk "on_start" [], .mk "decl_var" [.text "n", .block (.mk "convert_int" [.text "2"])],
       .mk "repeat" [.block (.mk "get_var" [.text "n"])],
       .mk "set_var" [.text "n", .block (.mk "convert_int" [.block (.mk "grow" [.block (.mk "get_var" [.text "n"])])])],
       .mk "end" []]⟩,
     ⟨[.definition "grow", .mk "return" [.block (.mk "plus" [.block (.mk "k" []), .text "1"])]]⟩]
  blockdefs := [⟨"grow", [.parameter "k"]⟩]

/-- It runs its body twice, as it says where it is reached. -/
theorem counted_loops_widening : ∃ code m r body rest, widening.compile.result = .ok code ∧
      advance code .idle (load code { memory := .new 1000 10000 }) 5 = .running m ∧
      m.active.code = .countLoop r body :: rest ∧ (m.active.get r).toInteger = 2 ∧
      roundsDone code .idle (load code { memory := .new 1000 10000 }) 5 m 42 = 2 ∧
      ∃ m', advance code .idle (load code { memory := .new 1000 10000 }) 48 = .running m' ∧ m.Leaves r rest m' := by
  obtain ⟨code, hcode, hfinds⟩ := widening.exists_code false
    (fun code => findsRounds code .idle (load code { memory := .new 1000 10000 }) 5 42 2 2) (by decide +kernel)
  obtain ⟨m, mk, r, body, rest, hm, hloop, hcount, hmk, hend, hstays, hdone⟩ := of_findsRounds hfinds
  obtain ⟨flag, rest', -, hall⟩ := (counted_loops hcode hm hloop).1
  obtain ⟨m', hm', hcases⟩ := (hall 42 mk hmk hstays).2.1 (.inr hend)
  refine ⟨code, m, r, body, rest, hcode, hm, hloop, hcount, hdone, m', hm', ?_⟩
  rcases hcases with ⟨hless, -⟩ | ⟨-, hleaves, -⟩
  · rw [hdone, hcount] at hless
    exact absurd hless (by decide)
  · exact hleaves

def leastCount : Program where
  chains :=
    [⟨[.mk "on_start" [], .mk "repeat" [.text "-9223372036854775808"], .mk "print" [.text "x"], .mk "end" []]⟩]
  blockdefs := []

/-- The countdown from the least number wraps around: the body runs although the count is negative. -/
theorem leastCount_enters_body : (max Int64.minValue.toInt 0).toNat = 0 ∧
    (leastCount.compile.result.toOption.any fun code =>
      findsRounds code .idle (load code { memory := .new 1000 10000 }) 2 5 Int64.minValue 1) = true ∧
    (leastCount.compile.result.toOption.bind fun code =>
      (advance code .idle (load code { memory := .new 1000 10000 }) 7).machine?).map (·.session.terminal.sink.written) =
        some #[120] := by
  decide +kernel

end Program

end Blockwork
