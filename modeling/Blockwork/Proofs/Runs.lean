import Blockwork.Machine.Run

/-! # Runs beside a host
Between any two steps of a program its host may act: ask the program to stop or take that back, record a fatal
condition, hand in input, let time pass. -/

namespace Blockwork

/-! ### Hosts -/

structure Session.Visited (s s' : Session) : Prop where
  memory : s'.memory = s.memory
  abort : s'.abort = s.abort ∨ s.abort = none ∧ ∃ text, s'.abort = some (.host text)

/-- What goes on beside a program: what is done to its session before each step. -/
structure Host where
  act : Nat → Session → Session
  polite : ∀ (n : Nat) (s : Session), s.Visited (act n s)

namespace Host

def idle : Host where
  act := fun _ s => s
  polite := fun _ _ => ⟨rfl, Or.inl rfl⟩

def stopAt (k : Nat) : Host where
  act := fun n s => if n = k then { s with stop := true } else s
  polite := fun n s => by
    by_cases h : n = k
    · rw [if_pos h]
      exact ⟨rfl, Or.inl rfl⟩
    · rw [if_neg h]
      exact ⟨rfl, Or.inl rfl⟩

def visit (h : Host) (n : Nat) (m : Machine) : Machine :=
  { m with session := h.act n m.session }

@[simp] theorem visit_session (h : Host) (n : Nat) (m : Machine) : (h.visit n m).session = h.act n m.session := rfl

theorem memory_act (h : Host) (n : Nat) (s : Session) : (h.act n s).memory = s.memory :=
  (h.polite n s).memory

end Host

def Progress.machine? : Progress → Option Machine
  | .running m => some m
  | .finished _ => none

theorem Progress.exists_running {p : Progress} (h : p.machine?.isSome = true) : ∃ m, p = .running m := by
  cases p with
  | running m => exact ⟨m, rfl⟩
  | finished => cases h

/-- A session in which nothing has happened yet: memory is empty, and no fatal condition is pending. -/
structure Session.Fresh (s : Session) : Prop where
  memory : ∃ low limit, s.memory = Memory.new low limit
  abort : s.abort = none

namespace Machine

variable {p : ProgramCode} {h : Host} {m : Machine} {s : Session} {n k : Nat}

/-! ### Following a run -/

/-- What a machine has come to after some steps beside a host. -/
def advance (p : ProgramCode) (h : Host) (m : Machine) : Nat → Progress
  | 0 => .running m
  | n + 1 =>
    match advance p h m n with
    | .running m => step p (h.visit n m)
    | .finished s => .finished s

theorem advance_succ (hn : advance p h m n = .running m') : advance p h m (n + 1) = step p (h.visit n m') := by
  rw [advance, hn]

theorem advance_succ_finished (hn : advance p h m n = .finished s) : advance p h m (n + 1) = .finished s := by
  rw [advance, hn]

theorem advance_finished_add (hn : advance p h m n = .finished s) (k : Nat) :
    advance p h m (n + k) = .finished s := by
  induction k with
  | zero => exact hn
  | succ k ih => exact advance_succ_finished ih

theorem running_of_le (hk : k ≤ n) (hn : advance p h m n = .running m') : ∃ mk, advance p h m k = .running mk := by
  cases hprogress : advance p h m k with
  | running mk => exact ⟨mk, rfl⟩
  | finished s =>
    obtain ⟨d, rfl⟩ := Nat.exists_eq_add_of_le hk
    rw [advance_finished_add hprogress] at hn
    cases hn

theorem running_succ (hn : advance p h m (n + 1) = .running m') :
    ∃ mn, advance p h m n = .running mn ∧ step p (h.visit n mn) = .running m' := by
  obtain ⟨mn, hmn⟩ := running_of_le (Nat.le_succ n) hn
  exact ⟨mn, hmn, (advance_succ hmn).symm.trans hn⟩

theorem finishing_step (hn : advance p h m n = .finished s) :
    ∃ k mk, k < n ∧ advance p h m k = .running mk ∧ step p (h.visit k mk) = .finished s := by
  induction n with
  | zero => cases hn
  | succ n ih =>
    cases hprogress : advance p h m n with
    | running mn => exact ⟨n, mn, Nat.lt_succ_self n, hprogress, (advance_succ hprogress).symm.trans hn⟩
    | finished t =>
      rw [advance_succ_finished hprogress] at hn
      cases hn
      obtain ⟨k, mk, hk, hrest⟩ := ih hprogress
      exact ⟨k, mk, Nat.lt_succ_of_lt hk, hrest⟩

theorem advance_invariant {P : Machine → Prop} (hstart : P m)
    (hstep : ∀ n m m', P m → step p (h.visit n m) = .running m' → P m') :
    ∀ {n m'}, advance p h m n = .running m' → P m' := by
  intro n
  induction n with
  | zero =>
    intro m' hn
    cases hn
    exact hstart
  | succ n ih =>
    intro m' hn
    obtain ⟨mn, hmn, hnext⟩ := running_succ hn
    exact hstep n mn m' (ih hmn) hnext

theorem advance_from {P : Nat → Machine → Prop} (hm : advance p h m₀ k = .running m) (hstart : P k m)
    (hstep : ∀ j mj mj', k ≤ j → advance p h m₀ j = .running mj → P j mj →
      step p (h.visit j mj) = .running mj' → P (j + 1) mj') (hk : k ≤ k') (hm' : advance p h m₀ k' = .running m') :
    P k' m' := by
  obtain ⟨d, rfl⟩ := Nat.exists_eq_add_of_le hk
  induction d generalizing m' with
  | zero =>
    obtain rfl := Progress.running.inj (hm.symm.trans hm')
    exact hstart
  | succ d ih =>
    obtain ⟨mj, hmj, hnext⟩ := running_succ hm'
    exact hstep _ mj m' (Nat.le_add_right k d) hmj (ih (Nat.le_add_right k d) hmj) hnext

theorem le_of_finishing (hm : advance p h m n = .running m') (hs : advance p h m (k + 1) = .finished s) : n ≤ k := by
  refine Nat.not_lt.mp fun hlt => ?_
  obtain ⟨d, rfl⟩ := Nat.exists_eq_add_of_lt hlt
  have hover := advance_finished_add hs d
  rw [Nat.add_right_comm] at hover
  cases hm.symm.trans hover

theorem advance_idle_add (hk : advance p .idle m k = .running m') :
    advance p .idle m (k + n) = advance p .idle m' n := by
  induction n with
  | zero => exact hk
  | succ n ih =>
    show advance p .idle m (k + n + 1) = _
    rw [advance, advance, ih]
    rfl

theorem run_eq_some_iff : run p fuel m = some s ↔ advance p .idle m fuel = .finished s := by
  induction fuel generalizing m with
  | zero => exact ⟨nofun, nofun⟩
  | succ fuel ih =>
    rw [run]
    cases hstep : step p m with
    | running m' =>
      have hone : advance p .idle m 1 = .running m' := hstep
      rw [Nat.add_comm fuel 1, advance_idle_add hone]
      exact ih
    | finished t =>
      have hone : advance p .idle m 1 = .finished t := hstep
      rw [Nat.add_comm fuel 1, advance_finished_add hone]
      simp

end Machine

end Blockwork
