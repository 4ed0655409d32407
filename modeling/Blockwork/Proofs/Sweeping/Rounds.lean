import Blockwork.Proofs.Sweeping.Regions
import Blockwork.Proofs.Trimming.Lowering

/-! # Rounds of loops
A loop is entered with the roots of its first round, and each round ends with the same ones, whatever calls and
bodies lie inside. -/

namespace Blockwork

open List (length_cons cons suffix_rfl suffix_cons)

open Machine

/-! ### Rounds in a run -/

def Instr.isLoop : Instr → Bool
  | .countLoop _ _ | .whileLoop _ _ _ | .foreverLoop _ => true
  | _ => false

def Kont.isRound : Kont → Bool
  | .countLoop _ _ _ | .whileBody _ _ _ _ | .foreverLoop _ => true
  | _ => false

/-- Whether a machine is inside a body of a function that had `waiting` callers and `konts` continuations before. -/
def Machine.Deeper (waiting konts : Nat) (m : Machine) : Prop :=
  waiting < m.waiting.length ∨ m.waiting.length = waiting ∧ konts < m.active.konts.length

instance (waiting konts : Nat) (m : Machine) : Decidable (m.Deeper waiting konts) :=
  inferInstanceAs (Decidable (_ ∨ _))

/-- Rounds of a loop in a run: at step `n` a loop is reached, its body is not left up to step `k`, and there a round is
done and the next one is to start. -/
structure Machine.Laps (p : ProgramCode) (h : Host) (m : Machine) (n k : Nat) (before after : Machine) : Prop where
  starts : ∃ m', advance p h m n = .running m' ∧ before = h.visit n m'
  loop : ∃ i rest, before.active.code = i :: rest ∧ i.isLoop = true
  lt : n < k
  inside : ∀ j m', n < j → j ≤ k → advance p h m j = .running m' →
    m'.Deeper before.waiting.length before.active.konts.length
  ends : ∃ m', advance p h m k = .running m' ∧ after = h.visit k m'
  waiting : after.waiting.length = before.waiting.length
  done : after.active.code = []
  round : ∃ kont ks, after.active.konts = kont :: ks ∧ ks.length = before.active.konts.length ∧ kont.isRound = true

def Machine.laps? (p : ProgramCode) (h : Host) (m : Machine) (n k : Nat) : Option (Machine × Machine) :=
  match advance p h m n, advance p h m k with
  | .running first, .running last =>
    if first.active.code.head?.any Instr.isLoop = true ∧ n < k ∧
        (∀ i < k - n, (advance p h m (n + 1 + i)).machine?.all
          (fun m => decide (m.Deeper first.waiting.length first.active.konts.length)) = true) ∧
        last.waiting.length = first.waiting.length ∧ last.active.code.isEmpty = true ∧
        last.active.konts.head?.any Kont.isRound = true ∧ last.active.konts.length = first.active.konts.length + 1
    then some (h.visit n first, h.visit k last)
    else none
  | _, _ => none

theorem Machine.laps_of_find {p : ProgramCode} {h : Host} {m : Machine} {n k : Nat} {before after : Machine}
    (hfind : laps? p h m n k = some (before, after)) : Laps p h m n k before after := by
  unfold laps? at hfind
  split at hfind
  case h_2 => cases hfind
  case h_1 first last hn hk =>
    split at hfind
    case isFalse => cases hfind
    case isTrue hcheck =>
      cases hfind
      obtain ⟨hloop, hlt, hinside, hwaiting, hdone, hround, hkonts⟩ := hcheck
      refine ⟨⟨first, hn, rfl⟩, ?_, hlt, fun j m' hj hjk hm' => ?_, ⟨last, hk, rfl⟩, hwaiting,
        List.isEmpty_iff.mp hdone, ?_⟩
      · obtain ⟨i, hi, hloop⟩ := (Option.any_eq_true _ _).mp hloop
        obtain ⟨is, hcode⟩ := List.head?_eq_some_iff.mp hi
        exact ⟨i, is, hcode, hloop⟩
      · have hdeep := hinside (j - (n + 1)) (by omega)
        rw [show n + 1 + (j - (n + 1)) = j by omega, hm'] at hdeep
        exact of_decide_eq_true hdeep
      · obtain ⟨kont, hkont, hround⟩ := (Option.any_eq_true _ _).mp hround
        obtain ⟨ks, hks⟩ := List.head?_eq_some_iff.mp hkont
        rw [hks] at hkonts
        exact ⟨kont, ks, hks, Nat.succ.inj hkonts, hround⟩

namespace Sweeping

open Flow

variable {c : Rules} {cells : List Bool} {p : ProgramCode} {h : Host} {m m' : Machine}

/-- The functions that wait, each called with some roots, and what their bodies keep. -/
inductive Waiting : List Roots → List Activation → List (List Roots) → Prop
  | nil : Waiting es [] []
  | cons {r : Roots} {es : List Roots} {a : Activation} {ws : List Activation} {snaps : List Roots}
      {rest : List (List Roots)} : (∀ new, Stands a.code a.konts (r.extend new) snaps) → Waiting es ws rest →
      Waiting (r :: es) (a :: ws) (snaps :: rest)

theorem Waiting.length (hw : Waiting es ws rest) : rest.length = ws.length := by
  induction hw with
  | nil => rfl
  | cons _ _ ih => exact congrArg (· + 1) ih

structure Kept (c : Rules) (cells : List Bool) (m : Machine) (snaps : List Roots) (rest : List (List Roots)) : Prop where
  order : ∃ entry es, InOrder c cells (entry :: es) m ∧ Waiting (entry :: es) m.waiting rest
  stands : Stands m.active.code m.active.konts m.session.memory.roots snaps

theorem Kept.length (hk : Kept c cells m snaps rest) : rest.length = m.waiting.length := by
  obtain ⟨entry, es, -, hwaiting⟩ := hk.order
  exact hwaiting.length

theorem Kept.visit (n : Nat) (hk : Kept c cells m snaps rest) : Kept c cells (h.visit n m) snaps rest := by
  obtain ⟨entry, es, horder, hwaiting⟩ := hk.order
  refine ⟨⟨entry, es, horder.visit n, hwaiting⟩, ?_⟩
  have hroots : (h.visit n m).session.memory.roots = m.session.memory.roots :=
    congrArg Memory.roots (h.memory_act n m.session)
  rw [hroots]
  exact hk.stands

inductive Moves (r : Roots) (snaps : List Roots) (rest : List (List Roots)) : List Roots → List (List Roots) → Prop
  | stays : Shift r snaps snaps' → Moves r snaps rest snaps' rest
  | calls : Moves r snaps rest [] (snaps :: rest)
  | returns {caller : List Roots} {outer : List (List Roots)} : rest = caller :: outer → Moves r snaps rest caller outer

theorem waiting_of_leave (hleave : leave s ws a v = .running m') : ws.length = m'.waiting.length + 1 := by
  cases ws with
  | nil => cases hleave
  | cons caller ws =>
    cases hleave
    rfl

theorem Kept.step (hok : ProgramOk c cells p) (hp : p.Tidy) (hk : Kept c cells m snaps rest)
    (hstep : step p m = .running m') :
    ∃ snaps' rest', Kept c cells m' snaps' rest' ∧ Moves m.session.memory.roots snaps rest snaps' rest' := by
  obtain ⟨entry, es, horder, hwaiting⟩ := hk.order
  have hturns := horder.turns hok
  have hgoes := hk.stands.goes hp
  rw [hstep] at hturns
  generalize hprogress : Machine.step p m = progress at hgoes
  -- both views of the step agree on how many functions wait behind it
  cases hgoes with
  | stays hstands hshift =>
    cases hprogress.symm.trans hstep
    refine ⟨_, rest, ⟨⟨entry, es, ?_, hwaiting⟩, hstands⟩, .stays hshift⟩
    cases hturns with
    | stays _ _ hnext => exact hnext
    | calls hmore => exact absurd (congrArg List.length hmore) (by simp)
    | returns hless => exact absurd (congrArg List.length hless) (by simp)
  | calls hstands hcaller =>
    cases hprogress.symm.trans hstep
    refine ⟨[], snaps :: rest, ⟨⟨_, entry :: es, ?_, .cons hcaller hwaiting⟩, hstands⟩, .calls⟩
    cases hturns with
    | stays hsame => exact absurd (congrArg List.length hsame) (by simp)
    | calls _ _ hnext => exact hnext
    | returns hless =>
      have hlength := congrArg List.length hless
      simp only [length_cons] at hlength
      omega
  | leaves =>
    have hless := waiting_of_leave (hprogress.symm.trans hstep)
    cases hturns with
    | stays hsame =>
      rw [hsame] at hless
      omega
    | calls hmore =>
      rw [hmore, length_cons] at hless
      omega
    | returns hcaller hactive hroots _ hnext =>
      rw [hcaller] at hwaiting
      cases hwaiting with
      | cons hstands hwaiting =>
        refine ⟨_, _, ⟨?_, ?_⟩, .returns rfl⟩
        · cases hnext with
          | intro hrules hcells hdoing hwaits habort =>
            exact ⟨_, _, .intro hrules hcells hdoing hwaits habort, hwaiting⟩
        · rw [hactive, hroots, Activation.code_set, Activation.konts_set]
          exact hstands _

theorem Kept.load (hok : ProgramOk c cells p) (hp : p.Tidy) (hs : s.Fresh) : Kept c cells (load p s) [] [] := by
  obtain ⟨d, is, hcode, htidy⟩ := hp.main
  exact ⟨⟨_, _, .load hok hs, .nil⟩, .entering hcode rfl htidy⟩

/-! ### Bodies that are not left -/

def Remembers (r : Roots) (w k : Nat) (all : List (List Roots)) : Prop :=
  ∃ snaps rest low, snaps :: rest <:+ all ∧ rest.length = w ∧ r :: low <:+ snaps ∧ low.length = k

theorem Remembers.moves (hr : Remembers r w k (snaps :: rest)) (hmoves : Moves r' snaps rest snaps' rest')
    (hdeep : w < rest'.length ∨ rest'.length = w ∧ k < snaps'.length) : Remembers r w k (snaps' :: rest') := by
  obtain ⟨own, outer, low, hall, hw, hown, hk⟩ := hr
  rcases List.suffix_cons_iff.mp hall with hsame | hinner
  · -- the function that entered the body is the one that runs
    obtain ⟨rfl, rfl⟩ := cons.inj hsame
    cases hmoves with
    | stays hshift =>
      cases hshift with
      | same => exact ⟨_, _, low, suffix_rfl, hw, hown, hk⟩
      | push => exact ⟨_, _, low, suffix_rfl, hw, hown.trans (suffix_cons _ _), hk⟩
      | pop =>
        rcases List.suffix_cons_iff.mp hown with hlast | hown
        · obtain ⟨-, rfl⟩ := cons.inj hlast
          omega
        · exact ⟨_, _, low, suffix_rfl, hw, hown, hk⟩
    | calls => exact ⟨_, _, low, suffix_cons _ _, hw, hown, hk⟩
    | returns hrest =>
      rw [hrest, length_cons] at hw
      omega
  · -- it waits for the one that runs
    cases hmoves with
    | stays _ => exact ⟨_, _, low, hinner.trans (suffix_cons _ _), hw, hown, hk⟩
    | calls => exact ⟨_, _, low, hall.trans (suffix_cons _ _), hw, hown, hk⟩
    | returns hrest => exact ⟨_, _, low, hrest ▸ hinner, hw, hown, hk⟩

theorem Remembers.top (hr : Remembers r w k (snaps :: rest)) (hw : rest.length = w) (hk : snaps.length = k + 1) :
    ∃ low, snaps = r :: low := by
  obtain ⟨own, outer, low, hall, houter, hown, hlow⟩ := hr
  have hlength : (own :: outer).length = (snaps :: rest).length := by simp [houter, hw]
  obtain ⟨rfl, rfl⟩ := cons.inj (hall.eq_of_length hlength)
  have hlength : (r :: low).length = own.length := by simp [hlow, hk]
  exact ⟨low, (hown.eq_of_length hlength).symm⟩

theorem waiting_of_isLoop (hcode : m.active.code = i :: is) (hi : i.isLoop = true) (hstep : step p m = .running m') :
    m'.waiting = m.waiting := by
  obtain ⟨s, ⟨code, ks, regs, low, dst⟩, ws⟩ := m
  cases hcode
  cases i with
  | countLoop | whileLoop | foreverLoop =>
    cases hstep
    rfl
  | _ => cases hi

theorem Kept.entersLoop (hok : ProgramOk c cells p) (hp : p.Tidy) (hk : Kept c cells m snaps rest)
    (hcode : m.active.code = i :: is) (hi : i.isLoop = true) (hstep : Machine.step p m = .running m')
    (hdeep : m'.Deeper m.waiting.length m.active.konts.length) : ∃ snaps' rest', Kept c cells m' snaps' rest' ∧
      Remembers m.session.memory.roots m.waiting.length m.active.konts.length (snaps' :: rest') := by
  obtain ⟨snaps', rest', hk', hmoves⟩ := hk.step hok hp hstep
  have hsame := congrArg List.length (waiting_of_isLoop hcode hi hstep)
  have hrest := hk.length
  have hrest' := hk'.length
  have hsnaps := hk.stands.length
  have hsnaps' := hk'.stands.length
  refine ⟨snaps', rest', hk', ?_⟩
  unfold Machine.Deeper at hdeep
  cases hmoves with
  | stays hshift =>
    cases hshift with
    | same => omega
    | push => exact ⟨_, _, snaps, suffix_rfl, hrest, suffix_rfl, hsnaps⟩
    | pop =>
      rw [length_cons] at hsnaps
      omega
  | calls =>
    rw [length_cons] at hrest'
    omega
  | returns hout =>
    rw [hout, length_cons] at hrest
    omega

theorem Stands.round (h : Stands [] (kont :: ks) r (base :: low)) (hkont : kont.isRound = true) : r = base := by
  cases h with
  | leaving hexits => cases hexits
  | inside htidy hsits hstack =>
    cases htidy
    cases hstack with
    | countLoop | foreverLoop => exact hsits
    | whileBody hturning => exact hsits.eq hturning.calm
    | next | closeRoots | whileTest => cases hkont

theorem exists_kept (hok : ProgramOk c cells p) (hp : p.Tidy) (hs : s.Fresh)
    (hn : advance p h (load p s) n = .running m) : ∃ snaps rest, Kept c cells m snaps rest := by
  refine advance_invariant (P := fun m => ∃ snaps rest, Kept c cells m snaps rest) ⟨_, _, .load hok hp hs⟩ ?_ hn
  rintro n m m' ⟨_, _, hk⟩ hstep
  obtain ⟨snaps, rest, hk, -⟩ := (hk.visit (h := h) n).step hok hp hstep
  exact ⟨snaps, rest, hk⟩

theorem laps_roots {s : Session} {n k : Nat} {before after : Machine} (hok : ProgramOk c cells p) (hp : p.Tidy)
    (hs : s.Fresh) (hlaps : Machine.Laps p h (Machine.load p s) n k before after) :
    after.session.memory.roots = before.session.memory.roots := by
  obtain ⟨mn, hmn, rfl⟩ := hlaps.starts
  obtain ⟨mk, hmk, rfl⟩ := hlaps.ends
  obtain ⟨i, is, hcode, hi⟩ := hlaps.loop
  obtain ⟨m₁, hm₁, hfirst⟩ : ∃ m₁, advance p h (Machine.load p s) (n + 1) = .running m₁ ∧
      step p (h.visit n mn) = .running m₁ := by
    obtain ⟨m₁, hm₁⟩ := running_of_le hlaps.lt hmk
    exact ⟨m₁, hm₁, (advance_succ hmn).symm.trans hm₁⟩
  obtain ⟨snaps, rest, hk⟩ := exists_kept hok hp hs hmn
  have henters := (hk.visit (h := h) n).entersLoop hok hp hcode hi hfirst
    (hlaps.inside _ m₁ (Nat.lt_succ_self n) hlaps.lt hm₁)
  -- up to the end of the round the body is not left, so that its roots are remembered
  have hremembers : k ≤ k → ∃ snaps rest, Kept c cells mk snaps rest ∧
      Remembers (h.visit n mn).session.memory.roots (h.visit n mn).waiting.length
        (h.visit n mn).active.konts.length (snaps :: rest) := by
    refine advance_from (P := fun j m => j ≤ k → ∃ snaps rest, Kept c cells m snaps rest ∧
      Remembers (h.visit n mn).session.memory.roots (h.visit n mn).waiting.length
        (h.visit n mn).active.konts.length (snaps :: rest)) hm₁ (fun _ => henters) ?_ hlaps.lt hmk
    intro j mj mj' hj hmj ih hstep hjk
    obtain ⟨snaps, rest, hkept, hr⟩ := ih (Nat.le_of_succ_le hjk)
    obtain ⟨snaps', rest', hkept', hmoves⟩ := (hkept.visit (h := h) j).step hok hp hstep
    have hdeep := hlaps.inside (j + 1) mj' (by omega) hjk ((advance_succ hmj).trans hstep)
    refine ⟨snaps', rest', hkept', hr.moves hmoves ?_⟩
    rw [hkept'.length, hkept'.stands.length]
    exact hdeep
  obtain ⟨snaps, rest, hkept, hr⟩ := hremembers (Nat.le_refl k)
  obtain ⟨kont, ks, hkonts, hks, hround⟩ := hlaps.round
  have hstands := (hkept.visit (h := h) k).stands
  obtain ⟨low, rfl⟩ := hr.top (hkept.length.trans hlaps.waiting) (by
    rw [hstands.length, hkonts, length_cons, hks])
  rw [hlaps.done, hkonts] at hstands
  exact hstands.round hround

end Sweeping

namespace Program

/-- Every time a loop of a compiled program comes back to its head the roots are those it was reached with, however
many rounds, bodies and calls lie between. -/
theorem laps_keep_roots {p : Program} {keep : Bool} {code : ProgramCode} {s : Session} (hheads : p.BareHeads)
    (hcode : (p.compile keep).result = .ok code) (hs : s.Fresh) (h : Host) {n k : Nat} {before after : Machine}
    (hlaps : Machine.Laps code h (Machine.load code s) n k before after) :
    after.session.memory.roots = before.session.memory.roots := by
  obtain ⟨functions, cells, hok⟩ := Flow.compile_programOk false false false hheads nofun nofun nofun hcode
  exact Sweeping.laps_roots hok (Trimming.compile_tidy hheads hcode) hs hlaps

/-- Spells a letter in a loop. -/
def spelling : Program where
  chains :=
    [⟨[.mk "on_start" [], .mk "decl_var" [.text "n", .block (.mk "convert_int" [.text "3"])],
       .mk "while" [.block (.mk "more" [.block (.mk "get_var" [.text "n"]),
         .block (.mk "length" [.block (.mk "join" [.block (.mk "chr" [.text "120"]), .text ""])])])],
       .mk "spell" [.block (.mk "chr" [.text "121"])],
       .mk "set_var" [.text "n", .block (.mk "minus" [.block (.mk "get_var" [.text "n"]), .text "1"])],
       .mk "end" []]⟩,
     ⟨[.definition "spell", .mk "repeat" [.text "2"], .mk "print" [.block (.mk "s" [])], .mk "end" []]⟩]
  blockdefs := [⟨"spell", [.parameter "s"]⟩]

theorem bareHeads_spelling : spelling.BareHeads :=
  .of_two (by decide) _ _ _ _

/-- Two rounds of the loop with a test. -/
theorem laps_keep_roots_spelling :
    spelling.BareHeads ∧ ∃ code before after, (spelling.compile false).result = .ok code ∧
      Machine.Laps code .idle (Machine.load code { memory := .new 1000 10000 }) 5 89 before after ∧
      after.session.memory.roots = before.session.memory.roots := by
  refine ⟨bareHeads_spelling, ?_⟩
  obtain ⟨code, hcode, hfinds⟩ := spelling.exists_code false
    (fun code => (laps? code .idle (load code { memory := .new 1000 10000 }) 5 89).isSome) (by decide +kernel)
  obtain ⟨⟨before, after⟩, hfind⟩ := Option.isSome_iff_exists.mp hfinds
  have hlaps := laps_of_find hfind
  refine ⟨code, before, after, hcode, hlaps, ?_⟩
  exact laps_keep_roots bareHeads_spelling hcode ⟨⟨_, _, rfl⟩, rfl⟩ .idle hlaps

end Program

end Blockwork
