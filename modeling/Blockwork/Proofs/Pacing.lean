import Blockwork.Proofs.Moves
import Blockwork.Proofs.Prologue

/-! # Pacing
Every round asks whether to leave as the last thing it does but for dropping temporaries, inside the frame of the
round if it has one; a caller asks as soon as a call is over. -/

namespace Blockwork.Flow

variable {asks : Bool} {i : Instr} {code is rest : List Instr} {k : Kont} {ks : List Kont}

def Drops (code : List Instr) : Prop :=
  ∀ i ∈ code, ∃ d, i = .entry d .flush []

theorem Drops.append (h : Drops code) (h' : Drops is) : Drops (code ++ is) := fun i hi =>
  (List.mem_append.mp hi).elim (h i) (h' i)

theorem drops_flush (d : Reg) : Drops [.entry d .flush []] := fun _ hi =>
  ⟨d, List.mem_singleton.mp hi⟩

theorem Polled.ne_nil (h : Polled code) : code ≠ [] := by
  cases h with
  | plain => exact List.append_ne_nil_of_right_ne_nil _ (List.cons_ne_nil _ _)
  | rooted => exact List.cons_ne_nil _ _
  | flushed => exact List.append_ne_nil_of_right_ne_nil _ (List.cons_ne_nil _ _)

theorem Polled.cons (h : Polled (i :: is)) :
    Polled is ∨ (i = .poll ∨ ∃ front, i = .rooted (front ++ [.poll])) ∧ Drops is := by
  generalize hcode : i :: is = code at h
  induction h generalizing is with
  | @plain front =>
    cases front with
    | nil =>
      cases hcode
      exact Or.inr ⟨Or.inl rfl, fun _ hj => (by cases hj)⟩
    | cons =>
      cases hcode
      exact Or.inl .plain
  | @rooted front =>
    cases hcode
    exact Or.inr ⟨Or.inr ⟨front, rfl⟩, fun _ hj => (by cases hj)⟩
  | @flushed front d hpolled ih =>
    cases front with
    | nil => exact absurd rfl hpolled.ne_nil
    | cons =>
      cases hcode
      rcases ih rfl with hfront | ⟨hi, hdrops⟩
      · exact Or.inl (.flushed hfront)
      · exact Or.inr ⟨hi, hdrops.append (drops_flush d)⟩

/-- Where code and its continuations stand. -/
inductive Ends : Bool → List Instr → List Kont → Prop where
  | outside {code : List Instr} : Ends true code []
  | polled {code : List Instr} {k : Kont} {ks : List Kont} : k.loops = true → Polled code →
      Ends true code (k :: ks)
  | drops {code : List Instr} {k : Kont} {ks : List Kont} : k.loops = true → Drops code →
      Ends false code (k :: ks)
  | framed {front rest : List Instr} {k : Kont} {ks : List Kont} : k.loops = true → Drops rest →
      Ends true (front ++ [.poll]) (.closeRoots rest :: k :: ks)
  | closing {rest : List Instr} {k : Kont} {ks : List Kont} : k.loops = true → Drops rest →
      Ends false [] (.closeRoots rest :: k :: ks)
  | next {code rest : List Instr} {ks : List Kont} : Ends true rest ks → Ends true code (.next rest :: ks)
  | closeRoots {code rest : List Instr} {ks : List Kont} : Ends true rest ks →
      Ends true code (.closeRoots rest :: ks)
  | test {code test body rest : List Instr} {r : Reg} {ks : List Kont} :
      Ends true code (.whileTest test r body rest :: ks)

def Kont.Leads : Kont → List Kont → Prop
  | .countLoop _ body rest, ks => Polled body ∧ Ends true rest ks
  | .whileTest _ _ body rest, ks => Polled body ∧ Ends true rest ks
  | .whileBody _ _ body rest, ks => Polled body ∧ Ends true rest ks
  | .foreverLoop body, _ => Polled body
  | _, _ => True

def LeadAll : List Kont → Prop
  | [] => True
  | k :: ks => Kont.Leads k ks ∧ LeadAll ks

structure Paced (asks : Bool) (code : List Instr) (ks : List Kont) : Prop where
  ends : Ends asks code ks
  lead : LeadAll ks

def RoundsAsk : Instr → Prop
  | .countLoop _ body => Polled body
  | .whileLoop _ _ body => Polled body
  | .foreverLoop body => Polled body
  | _ => True

/-! ### One step -/

theorem Ends.behind (h : Ends asks (i :: is) ks) (hi : i ≠ .poll) : Ends asks is ks ∨
    asks = true ∧ ∃ front k ks', i = .rooted (front ++ [.poll]) ∧ Drops is ∧ ks = k :: ks' ∧ k.loops = true := by
  generalize hcode : i :: is = code at h
  cases h with
  | outside => exact Or.inl .outside
  | polled hk hpolled =>
    subst hcode
    rcases hpolled.cons with htail | ⟨hpoll | ⟨front, hrooted⟩, hdrops⟩
    · exact Or.inl (.polled hk htail)
    · exact absurd hpoll hi
    · exact Or.inr ⟨rfl, front, _, _, hrooted, hdrops, rfl, hk⟩
  | drops hk hdrops =>
    subst hcode
    exact Or.inl (.drops hk fun j hj => hdrops j (List.mem_cons_of_mem _ hj))
  | @framed front _ _ _ hk hdrops =>
    cases front with
    | nil =>
      cases hcode
      exact absurd rfl hi
    | cons =>
      cases hcode
      exact Or.inl (.framed hk hdrops)
  | closing => cases hcode
  | next hrest => exact Or.inl (.next hrest)
  | closeRoots hrest => exact Or.inl (.closeRoots hrest)
  | test => exact Or.inl .test

theorem Ends.asks_of (h : Ends asks (i :: is) ks) (hi : ∀ d, i ≠ .entry d .flush []) : asks = true := by
  generalize hcode : i :: is = code at h
  cases h with
  | drops _ hdrops =>
    subst hcode
    obtain ⟨d, hd⟩ := hdrops i List.mem_cons_self
    exact absurd hd (hi d)
  | closing => cases hcode
  | _ => rfl

theorem Ends.nested (h : Ends asks (i :: is) ks) (hpoll : i ≠ .poll) (hflush : ∀ d, i ≠ .entry d .flush [])
    (hrooted : ∀ body, i ≠ .rooted body) : Ends true is ks := by
  obtain rfl := h.asks_of hflush
  rcases h.behind hpoll with hbehind | ⟨-, front, k, ks', hi, -⟩
  · exact hbehind
  · exact absurd hi (hrooted _)

theorem Ends.asked (h : Ends asks (.poll :: is) ks) : ∃ asks', Ends asks' is ks := by
  generalize hcode : Instr.poll :: is = code at h
  cases h with
  | outside => exact ⟨_, .outside⟩
  | polled hk hpolled =>
    subst hcode
    rcases hpolled.cons with htail | ⟨-, hdrops⟩
    · exact ⟨_, .polled hk htail⟩
    · exact ⟨_, .drops hk hdrops⟩
  | drops hk hdrops =>
    subst hcode
    obtain ⟨d, hd⟩ := hdrops _ List.mem_cons_self
    cases hd
  | @framed front _ _ _ hk hdrops =>
    cases front with
    | nil =>
      cases hcode
      exact ⟨_, .closing hk hdrops⟩
    | cons =>
      cases hcode
      exact ⟨_, .framed hk hdrops⟩
  | closing => cases hcode
  | next hrest => exact ⟨_, .next hrest⟩
  | closeRoots hrest => exact ⟨_, .closeRoots hrest⟩
  | test => exact ⟨_, .test⟩

theorem Ends.rooted (h : Ends asks (.rooted body :: is) ks) : Ends true body (.closeRoots is :: ks) := by
  obtain rfl := h.asks_of nofun
  rcases h.behind nofun with hbehind | ⟨-, front, k, ks', hi, hdrops, rfl, hk⟩
  · exact .closeRoots hbehind
  · cases hi
    exact .framed hk hdrops

theorem Ends.at_end (h : Ends asks [] (k :: ks)) : k.loops = true ∧ asks = false ∨
    (∃ rest, (k = .next rest ∨ k = .closeRoots rest) ∧ Ends asks rest ks) ∨
    ∃ test r body rest, k = .whileTest test r body rest := by
  generalize hcode : ([] : List Instr) = code at h
  generalize hks : k :: ks = konts at h
  cases h with
  | outside => cases hks
  | polled _ hpolled => exact absurd hcode.symm hpolled.ne_nil
  | drops hk =>
    cases hks
    exact Or.inl ⟨hk, rfl⟩
  | framed => simp at hcode
  | closing hk hdrops =>
    cases hks
    exact Or.inr (Or.inl ⟨_, Or.inr rfl, .drops hk hdrops⟩)
  | next hrest =>
    cases hks
    exact Or.inr (Or.inl ⟨_, Or.inl rfl, hrest⟩)
  | closeRoots hrest =>
    cases hks
    exact Or.inr (Or.inl ⟨_, Or.inr rfl, hrest⟩)
  | test =>
    cases hks
    exact Or.inr (Or.inr ⟨_, _, _, _, rfl⟩)

theorem Ends.at_loop (h : Ends asks [] (k :: ks)) (hk : k.loops = true) : asks = false := by
  rcases h.at_end with ⟨-, hasks⟩ | ⟨rest, rfl | rfl, -⟩ | ⟨_, _, _, _, rfl⟩
  · exact hasks
  all_goals cases hk

theorem Paced.moves (h : Paced asks code ks) (hmoves : Machine.Moves code ks code' ks')
    (hasks : ∀ i is, code = i :: is → RoundsAsk i) :
    ∃ asks', Paced asks' code' ks' ∧ (asks = true → (∀ is, code ≠ .poll :: is) → asks' = true) := by
  obtain ⟨hends, hlead⟩ := h
  cases hmoves with
  | @plain i is ks hi =>
    have hpoll : i ≠ .poll := by
      rintro rfl
      cases hi
    rcases hends.behind hpoll with hbehind | ⟨-, front, k, ks', rfl, -⟩
    · exact ⟨asks, ⟨hbehind, hlead⟩, fun h _ => h⟩
    · cases hi
  | asked =>
    obtain ⟨asks', hbehind⟩ := hends.asked
    exact ⟨asks', ⟨hbehind, hlead⟩, fun _ hne => absurd rfl (hne _)⟩
  | rooted => exact ⟨true, ⟨hends.rooted, trivial, hlead⟩, fun _ _ => rfl⟩
  | branch => exact ⟨true, ⟨.next (hends.nested nofun nofun nofun), trivial, hlead⟩, fun _ _ => rfl⟩
  | skip => exact ⟨true, ⟨hends.nested nofun nofun nofun, hlead⟩, fun _ _ => rfl⟩
  | count =>
    have hround : Polled code' := hasks _ _ rfl
    exact ⟨true, ⟨.polled rfl hround, ⟨hround, hends.nested nofun nofun nofun⟩, hlead⟩, fun _ _ => rfl⟩
  | none => exact ⟨true, ⟨hends.nested nofun nofun nofun, hlead⟩, fun _ _ => rfl⟩
  | test => exact ⟨true, ⟨.test, ⟨hasks _ _ rfl, hends.nested nofun nofun nofun⟩, hlead⟩, fun _ _ => rfl⟩
  | forever =>
    have hround : Polled code' := hasks _ _ rfl
    exact ⟨true, ⟨.polled rfl hround, hround, hlead⟩, fun _ _ => rfl⟩
  | next | close =>
    rcases hends.at_end with ⟨hk, -⟩ | ⟨rest, hk, hrest⟩ | ⟨_, _, _, _, hk⟩
    · cases hk
    · obtain rfl : rest = code' := by rcases hk with hk | hk <;> cases hk; rfl
      exact ⟨asks, ⟨hrest, hlead.2⟩, fun h _ => h⟩
    · cases hk
  | holds => exact ⟨true, ⟨.polled rfl hlead.1.1, hlead⟩, fun _ _ => rfl⟩
  | fails => exact ⟨true, ⟨hlead.1.2, hlead.2⟩, fun _ _ => rfl⟩

theorem Paced.rounds (h : Paced asks [] ks) (hrounds : Machine.Rounds ks code' ks') : Paced true code' ks' := by
  have hlead := h.lead
  cases hrounds with
  | again => exact ⟨.polled rfl hlead.1.1, hlead⟩
  | done => exact ⟨hlead.1.2, hlead.2⟩
  | retest => exact ⟨.test, hlead⟩
  | forever => exact ⟨.polled rfl hlead.1, hlead⟩

structure PacedAll (asks : Bool) (m : Machine) : Prop where
  active : Paced asks m.active.code m.active.konts
  waiting : ∀ a ∈ m.waiting, Paced true a.code a.konts ∧ ∃ is, a.code = .poll :: is

variable {m : Machine}

theorem InOrder.roundsAsk (h : InOrder c cells es m) (hcode : m.active.code = i :: is) : RoundsAsk i := by
  cases i with
  | countLoop =>
    obtain ⟨σ, b, fs, f, e, n, -, -, -, hhead, -⟩ := h.head hcode rfl
    cases hhead with
    | step hstep => cases hstep
    | countLoop hpolled => exact hpolled
  | whileLoop =>
    obtain ⟨σ, b, fs, f, e, n, -, -, -, hhead, -⟩ := h.head hcode rfl
    cases hhead with
    | step hstep => cases hstep
    | whileLoop hwhile => exact hwhile.polled
    | whileDead _ hpolled => exact hpolled
  | foreverLoop =>
    obtain ⟨σ, b, fs, f, e, n, -, -, -, hhead, -⟩ := h.head hcode rfl
    cases hhead with
    | step hstep => cases hstep
    | foreverLoop _ hpolled => exact hpolled
  | _ => trivial

theorem InOrder.call_asks (h : InOrder c cells es m) (hcode : m.active.code = .call d fn args :: is) :
    ∃ rest, is = .poll :: rest := by
  obtain ⟨σ, b, fs, f, e, n, -, -, -, hhead, -⟩ := h.head hcode rfl
  cases hhead with
  | step hstep => cases hstep
  | call _ _ _ _ _ hrest =>
    obtain ⟨rest, hrest, -⟩ := hrest
    exact ⟨rest, hrest⟩

theorem PacedAll.at_round (h : PacedAll asks m) (hround : m.AtRound) : asks = false := by
  obtain ⟨hcode, k, ks, hks, hk⟩ := hround
  have hends := h.active.ends
  rw [hcode, hks] at hends
  exact hends.at_loop hk

theorem PacedAll.step (horder : InOrder c cells es m) (h : PacedAll asks m) (hstep : Machine.step p m = .running m') :
    ∃ asks', PacedAll asks' m' ∧ (asks = true → m.session.shouldExit = true → asks' = true) ∧
      (m.AtRound → asks' = true) := by
  have hdoes := Machine.does p m
  rw [hstep] at hdoes
  cases hdoes with
  | @moves s a hmoves hpoll _ _ =>
    obtain ⟨asks', hpaced, hahead⟩ := h.active.moves hmoves fun i is hcode => horder.roundsAsk hcode
    refine ⟨asks', ⟨hpaced, h.waiting⟩, fun hasks hexit => hahead hasks fun is hcode => ?_, ?_⟩
    · rw [hpoll is hcode] at hexit
      cases hexit
    · rintro ⟨hcode, k, ks, hks, hk⟩
      rw [hcode, hks] at hmoves
      rw [hmoves.loops] at hk
      cases hk
  | rounds hcode hrounds =>
    have hactive := h.active
    rw [hcode] at hactive
    have hpaced := hactive.rounds hrounds
    exact ⟨true, ⟨hpaced, h.waiting⟩, fun _ _ => rfl, fun _ => rfl⟩
  | @calls s a d fn args is hcode _ hkonts _ _ =>
    obtain ⟨rest, rfl⟩ := horder.call_asks hcode
    have hactive := h.active
    rw [hcode] at hactive
    refine ⟨true, ⟨⟨?_, ?_⟩, ?_⟩, fun _ _ => rfl, fun _ => rfl⟩
    · rw [hkonts]
      exact .outside
    · rw [hkonts]
      trivial
    · intro w hw
      rcases List.mem_cons.mp hw with rfl | hw
      · exact ⟨⟨hactive.ends.nested nofun nofun nofun, hactive.lead⟩, rest, rfl⟩
      · exact h.waiting w hw
  | @returns s caller ws v hwaiting _ =>
    have hcaller := h.waiting
    rw [hwaiting] at hcaller
    exact ⟨true, ⟨(hcaller caller List.mem_cons_self).1, fun w hw => hcaller w (List.mem_cons_of_mem _ hw)⟩,
      fun _ _ => rfl, fun _ => rfl⟩

end Blockwork.Flow
