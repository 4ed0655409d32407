import Blockwork.Proofs.Pacing

/-! # Cancellation
Once a program has to stop it winds down, unless its host takes the request back: at most one more round
of a loop is begun, functions that are called leave at once, and the main function returns. -/

namespace Blockwork

open Activation

/-- The host does not take a request to stop back after step `n` of a run. -/
def Host.Insists (h : Host) (p : ProgramCode) (m₀ : Machine) (n : Nat) : Prop :=
  ∀ k m, n < k → Machine.advance p h m₀ k = .running m → m.session.stop = true → (h.act k m.session).stop = true

theorem Host.insists_stopAt (k : Nat) (p : ProgramCode) (m₀ : Machine) (n : Nat) : (stopAt k).Insists p m₀ n := by
  intro j m _ _ hstop
  simp only [stopAt]
  split
  · rfl
  · exact hstop

structure Machine.WindsDown (p : ProgramCode) (h : Host) (m₀ : Machine) (n : Nat) : Prop where
  /-- A function that asks is left: the run is over, or the caller goes on with nothing. -/
  asks : ∀ k m is, n ≤ k → advance p h m₀ k = .running m → m.active.code = .poll :: is →
    (m.waiting = [] ∧ ∃ s, advance p h m₀ (k + 1) = .finished s) ∨
      ∃ caller m', m.waiting = caller :: m'.waiting ∧ advance p h m₀ (k + 1) = .running m' ∧
        m'.active = caller.set m.active.dst nothingResult
  /-- No two rounds of loops end. -/
  rounds : ∀ k k' m m', n ≤ k → n ≤ k' → advance p h m₀ k = .running m → advance p h m₀ k' = .running m' →
    m.AtRound → m'.AtRound → k = k'
  /-- Nothing of a function that is called runs but its prologue. -/
  calls : ∀ k m d fn args rest, n ≤ k → advance p h m₀ k = .running m →
    m.active.code = .call d fn args :: rest → ∃ j asking m', Prologue p h m₀ k j m d rest asking ∧
      advance p h m₀ (k + j + 1) = .running m' ∧ m'.waiting = m.waiting ∧
      m'.active = set { m.active with code := rest } d nothingResult
  /-- The main function returns. The first fatal condition of the run is its failure; without one it was
  stopped. -/
  ends : ∃ N s, advance p h m₀ N = .finished s ∧
    (∀ k m e, advance p h m₀ k = .running m → m.session.abort = some e → s.abort = some e) ∧
    (∀ e, s.abort = some e → s.result = .failure e) ∧ (s.abort = none → s.result = .stopped)

namespace Machine

variable {p : ProgramCode} {h : Host} {m₀ m m' : Machine} {n k k' : Nat} {s : Session} {e : Fatal}

theorem abort_act (h : Host) (n : Nat) (hs : s.abort = some e) : (h.act n s).abort = some e := by
  rcases (h.polite n s).abort with hsame | ⟨hnone, -⟩
  · exact hsame.trans hs
  · cases hnone.symm.trans hs

theorem limited_act (h : Host) (n : Nat) (hs : s.Limited) : (h.act n s).Limited := by
  intro hover
  rw [h.memory_act] at hover
  obtain ⟨e, he⟩ := Option.isSome_iff_exists.mp (hs hover)
  rw [abort_act h n he]
  rfl

theorem abort_of_le (hm : advance p h m₀ k = .running m) (he : m.session.abort = some e) (hk : k ≤ k')
    (hm' : advance p h m₀ k' = .running m') : m'.session.abort = some e :=
  advance_from (P := fun _ m => m.session.abort = some e) hm he
    (fun j _ _ _ _ hj hstep => (recalls_step hstep).abort e (abort_act h j hj)) hk hm'

theorem abort_finished (hm : advance p h m₀ k = .running m) (he : m.session.abort = some e)
    (hs : advance p h m₀ n = .finished s) : s.abort = some e := by
  obtain ⟨j, mj, -, hmj, hlast⟩ := finishing_step hs
  have hle : k ≤ j := le_of_finishing hm ((advance_succ hmj).trans hlast)
  exact (recalls_finish hlast).abort e (abort_act h j (abort_of_le hm he hle hmj))

theorem pending_of_le (hm : advance p h m₀ n = .running m) (hexit : (h.act n m.session).shouldExit = true)
    (hstays : (h.act n m.session).abort.isSome = true ∨ h.Insists p m₀ n) (hk : n ≤ k)
    (hm' : advance p h m₀ k = .running m') : (h.act k m'.session).shouldExit = true := by
  have habort : ∀ {j mj mj'}, step p (h.visit j mj) = .running mj' →
      (h.act j mj.session).abort.isSome = true → (h.act (j + 1) mj'.session).abort.isSome = true := by
    intro j mj mj' hstep hj
    obtain ⟨e, he⟩ := Option.isSome_iff_exists.mp hj
    rw [abort_act h (j + 1) ((recalls_step hstep).abort e he)]
    rfl
  rcases hstays with hfatal | hinsists
  · have hsome : (h.act k m'.session).abort.isSome = true :=
      advance_from (P := fun j m => (h.act j m.session).abort.isSome = true) hm hfatal
        (fun j _ _ _ _ hj hstep => habort hstep hj) hk hm'
    simp [Session.shouldExit, hsome]
  · refine advance_from (P := fun j m => (h.act j m.session).shouldExit = true) hm hexit
      (fun j mj mj' hj hmj hpending hstep => ?_) hk hm'
    have hnext : advance p h m₀ (j + 1) = .running mj' := (advance_succ hmj).trans hstep
    rcases (Bool.or_eq_true _ _).mp hpending with hfatal | hstop
    · simp [Session.shouldExit, habort hstep hfatal]
    · have hstill := hinsists (j + 1) mj' (by omega) hnext ((recalls_step hstep).stop hstop)
      simp [Session.shouldExit, hstill]

end Machine

namespace Flow

open Machine

variable {c : Rules} {cells : List Bool} {p : ProgramCode} {h : Host} {s : Session} {n k k' : Nat}
  {m m' : Machine} {asks : Bool}

theorem PacedAll.load (p : ProgramCode) (s : Session) : PacedAll true (load p s) :=
  ⟨⟨.outside, trivial⟩, fun _ ha => by cases ha⟩

theorem ProgramOk.paced (hp : ProgramOk c cells p) (hs : s.Fresh)
    (hm : advance p h (load p s) n = .running m) : ∃ asks, PacedAll asks m := by
  refine advance_from (P := fun _ m => ∃ asks, PacedAll asks m) (k := 0) rfl ⟨true, .load p s⟩
    (fun j mj mj' _ hmj hpaced hstep => ?_) (Nat.zero_le n) hm
  obtain ⟨asks, hpaced⟩ := hpaced
  obtain ⟨entry, es, horder⟩ := hp.inOrder hs hmj
  have hvisit : PacedAll asks (h.visit j mj) := ⟨hpaced.active, hpaced.waiting⟩
  obtain ⟨asks', hnext, -⟩ := hvisit.step (horder.visit j) hstep
  exact ⟨asks', hnext⟩

structure Stopping (c : Rules) (cells : List Bool) (p : ProgramCode) (h : Host) (s : Session) (n : Nat) :
    Prop where
  program : ProgramOk c cells p
  fresh : s.Fresh
  pending : ∀ k m, n ≤ k → advance p h (Machine.load p s) k = .running m → (h.act k m.session).shouldExit = true

namespace Stopping

variable (hstop : Stopping c cells p h s n)

include hstop

theorem step (hk : n ≤ k) (hm : advance p h (load p s) k = .running m) (hpaced : PacedAll asks m)
    (hstep : step p (h.visit k m) = .running m') :
    ∃ asks', PacedAll asks' m' ∧ (asks = true → asks' = true) ∧ (m.AtRound → asks' = true) := by
  obtain ⟨entry, es, horder⟩ := hstop.program.inOrder hstop.fresh hm
  have hvisit : PacedAll asks (h.visit k m) := ⟨hpaced.active, hpaced.waiting⟩
  obtain ⟨asks', hnext, hahead, hround⟩ := hvisit.step (horder.visit k) hstep
  exact ⟨asks', hnext, fun hasks => hahead hasks (hstop.pending k m hk hm), hround⟩

theorem paced_of_le (hk : n ≤ k) (hm : advance p h (load p s) k = .running m) (hpaced : PacedAll true m)
    (hle : k ≤ k') (hm' : advance p h (load p s) k' = .running m') : PacedAll true m' := by
  refine advance_from (P := fun _ m => PacedAll true m) hm hpaced (fun j mj mj' hj hmj hpaced hstep => ?_) hle hm'
  obtain ⟨asks', hnext, hahead, -⟩ := hstop.step (Nat.le_trans hk hj) hmj hpaced hstep
  rw [hahead rfl] at hnext
  exact hnext

theorem rounds_eq (hk : n ≤ k) (hlt : k < k') (hm : advance p h (load p s) k = .running m)
    (hm' : advance p h (load p s) k' = .running m') (hround : m.AtRound) : ¬ m'.AtRound := by
  obtain ⟨asks, hpaced⟩ := hstop.program.paced hstop.fresh hm
  obtain ⟨mk, hmk⟩ := running_of_le hlt hm'
  obtain ⟨asks', hnext, -, hahead⟩ := hstop.step hk hm hpaced ((advance_succ hm).symm.trans hmk)
  rw [hahead hround] at hnext
  have hlater := hstop.paced_of_le (Nat.le_succ_of_le hk) hmk hnext hlt hm'
  intro hround'
  cases hlater.at_round hround'

/-! ### Winding down -/

theorem left_when_asking (hk : n ≤ k) (hm : advance p h (Machine.load p s) k = .running m)
    (hcode : m.active.code = .poll :: is) :
    (m.waiting = [] ∧ ∃ t, advance p h (Machine.load p s) (k + 1) = .finished t) ∨
      ∃ caller m', m.waiting = caller :: m'.waiting ∧ advance p h (Machine.load p s) (k + 1) = .running m' ∧
        m'.active = caller.set m.active.dst nothingResult := by
  have hexit := hstop.pending k m hk hm
  rw [advance_succ hm]
  obtain ⟨s', ⟨code, konts, regs, base, dst⟩, ws⟩ := m
  cases hcode
  have hstep : Machine.step p (h.visit k ⟨s', ⟨.poll :: is, konts, regs, base, dst⟩, ws⟩) =
      leave (h.act k s').rootRestore ws ⟨is, konts, regs, base, dst⟩ nothingResult :=
    if_pos hexit
  rw [hstep]
  cases ws with
  | nil => exact Or.inl ⟨rfl, _, rfl⟩
  | cons caller => exact Or.inr ⟨caller, _, rfl, rfl, rfl⟩

theorem ends_of_asking (hk : n ≤ k) (hm : advance p h (load p s) k = .running m)
    (hcode : m.active.code = .poll :: is) : ∃ N t, advance p h (load p s) N = .finished t := by
  generalize hws : m.waiting = ws
  induction ws generalizing k m is with
  | nil =>
    rcases hstop.left_when_asking hk hm hcode with ⟨-, t, ht⟩ | ⟨caller, m', hwaiting, -⟩
    · exact ⟨_, t, ht⟩
    · cases hws.symm.trans hwaiting
  | cons w ws ih =>
    rcases hstop.left_when_asking hk hm hcode with ⟨hnone, -⟩ | ⟨caller, m', hwaiting, hm', hactive⟩
    · cases hws.symm.trans hnone
    · obtain ⟨rfl, hws'⟩ := List.cons.inj (hws.symm.trans hwaiting)
      obtain ⟨asks, hpaced⟩ := hstop.program.paced hstop.fresh hm
      obtain ⟨-, is', hcaller⟩ := hpaced.waiting w (by rw [hws]; exact List.mem_cons_self)
      have hcode' : m'.active.code = .poll :: is' := by
        rw [hactive, code_set]
        exact hcaller
      exact ih (Nat.le_succ_of_le hk) hm' hcode' hws'.symm

theorem calls (hk : n ≤ k) (hm : advance p h (load p s) k = .running m)
    (hcode : m.active.code = .call d fn args :: rest) : ∃ j asking m', Prologue p h (load p s) k j m d rest asking ∧
      advance p h (load p s) (k + j + 1) = .running m' ∧ m'.waiting = m.waiting ∧
      m'.active = set { m.active with code := rest } d nothingResult := by
  obtain ⟨j, asking, -, hprologue⟩ := hstop.program.prologue hstop.fresh hm hcode
  have hexit := hstop.pending _ asking (Nat.le_trans hk (Nat.le_add_right k j)) hprologue.reached
  obtain ⟨m', hm', hwaiting, hactive, -⟩ := hprologue.leaves hexit
  exact ⟨j, asking, m', hprologue, hm', hwaiting, hactive⟩

theorem ends_of_paced (hagain : asks = false → ∀ k m, n ≤ k →
      advance p h (Machine.load p s) k = .running m → PacedAll true m →
      ∃ N t, advance p h (Machine.load p s) N = .finished t)
    (hk : n ≤ k) (hm : advance p h (Machine.load p s) k = .running m) (hpaced : PacedAll asks m) :
    ∃ N t, advance p h (Machine.load p s) N = .finished t := by
  generalize hw : weightWith m.active.code m.active.konts = w
  induction w using Nat.strongRecOn generalizing k m with
  | ind w ih =>
    have hsucc := Nat.le_succ_of_le hk
    have hdoes := Machine.does p (h.visit k m)
    generalize hprogress : Machine.step p (h.visit k m) = progress at hdoes
    have hnext := (advance_succ hm).trans hprogress
    cases hdoes with
    | moves hmoves =>
      obtain ⟨asks', hpaced', hahead, -⟩ := hstop.step hk hm hpaced hprogress
      cases asks' with
      | true =>
        cases asks with
        | true => exact ih _ (hw ▸ hmoves.weight_lt) hsucc hnext hpaced' rfl
        | false => exact hagain rfl _ _ hsucc hnext hpaced'
      | false =>
        cases asks with
        | true => cases hahead rfl
        | false => exact ih _ (hw ▸ hmoves.weight_lt) hsucc hnext hpaced' rfl
    | rounds hcode hrounds =>
      have hround : m.AtRound := ⟨hcode, hrounds.loops⟩
      obtain rfl := hpaced.at_round hround
      obtain ⟨asks', hpaced', -, hahead⟩ := hstop.step hk hm hpaced hprogress
      rw [hahead hround] at hpaced'
      exact hagain rfl _ _ hsucc hnext hpaced'
    | @calls _ _ d fn args is hcode _ _ _ =>
      obtain ⟨j, asking, m', hprologue, -⟩ := hstop.calls hk hm hcode
      obtain ⟨body, hbody⟩ := hprologue.asks
      exact hstop.ends_of_asking (Nat.le_trans hk (Nat.le_add_right k j)) hprologue.reached hbody
    | @returns _ caller ws v hwaiting _ =>
      have hwaiting : m.waiting = caller :: ws := hwaiting
      obtain ⟨-, is, hcaller⟩ := hpaced.waiting caller (by rw [hwaiting]; exact List.mem_cons_self)
      have hcode : (caller.set m.active.dst v).code = .poll :: is := by
        rw [code_set]
        exact hcaller
      exact hstop.ends_of_asking hsucc hnext hcode
    | ends => exact ⟨_, _, hnext⟩

theorem ends (hm : advance p h (load p s) n = .running m) : ∃ N t, advance p h (load p s) N = .finished t := by
  obtain ⟨asks, hpaced⟩ := hstop.program.paced hstop.fresh hm
  refine hstop.ends_of_paced (fun _ k m hk hm hpaced => ?_) (Nat.le_refl n) hm hpaced
  exact hstop.ends_of_paced (fun hne => by cases hne) hk hm hpaced

theorem result (hm : advance p h (load p s) n = .running m)
    (ht : advance p h (load p s) N = .finished t) (hnone : t.abort = none) : t.result = .stopped := by
  obtain ⟨j, mj, -, hmj, hlast⟩ := finishing_step ht
  have hle : n ≤ j := le_of_finishing hm ((advance_succ hmj).trans hlast)
  have hexit := (recalls_finish hlast).shouldExit (hstop.pending j mj hle hmj)
  have hstill : t.stop = true := by
    simpa [Session.shouldExit, hnone] using hexit
  simp [Session.result, hnone, hstill]

theorem windsDown (hm : advance p h (load p s) n = .running m) : WindsDown p h (load p s) n where
  asks := fun _ _ _ hk hm hcode => hstop.left_when_asking hk hm hcode
  rounds := fun k k' m m' hk hk' hm hm' hround hround' => by
    rcases Nat.lt_trichotomy k k' with hlt | heq | hgt
    · exact absurd hround' (hstop.rounds_eq hk hlt hm hm' hround)
    · exact heq
    · exact absurd hround (hstop.rounds_eq hk' hgt hm' hm hround')
  calls := fun _ _ _ _ _ _ hk hm hcode => hstop.calls hk hm hcode
  ends := by
    obtain ⟨N, t, ht⟩ := hstop.ends hm
    refine ⟨N, t, ht, fun _ _ _ hk he => abort_finished hk he ht, fun e he => ?_, hstop.result hm ht⟩
    simp [Session.result, he]

end Stopping

end Flow

namespace Program

/-- Calls a block that prints a letter, forever. -/
def ticking : Program where
  chains :=
    [⟨[.mk "on_start" [], .mk "loop" [], .mk "tick" [], .mk "end" []]⟩,
     ⟨[.definition "tick", .mk "print" [.text "x"]]⟩]
  blockdefs := [⟨"tick", []⟩]

theorem bareHeads_ticking : ticking.BareHeads :=
  .of_two (by decide) _ _ _ _

end Program

end Blockwork
