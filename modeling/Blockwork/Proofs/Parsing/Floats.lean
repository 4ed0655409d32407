import Mathlib.Data.List.TakeWhile
import Blockwork.Text.Decimal
import Blockwork.Proofs.Parsing.Integers

/-! # Leading floats

Reading a float takes the longest decimal number at the front of a text. -/

namespace Blockwork.Text

/-- A sign in front of a number, and whether it negates it. -/
inductive Sign : Bool → List Char → Prop
  | none : Sign false []
  | plus : Sign false ['+']
  | minus : Sign true ['-']

def Digits (ds p : List Char) : Prop := p = ds ∧ ∀ d ∈ ds, d.isDigit = true

/-- The digits behind a point, if there is one. -/
inductive Fraction : List Char → List Char → Prop
  | none : Fraction [] []
  | point : Digits ds p → Fraction ds ('.' :: p)

/-- Two parts of a text, one behind the other. -/
def Seq {α β : Type} (R : α → List Char → Prop) (Q : β → List Char → Prop) (v : α × β) (text : List Char) : Prop :=
  ∃ p q, text = p ++ q ∧ R v.1 p ∧ Q v.2 q

def powerOf (neg : Bool) (n : Nat) : Int := if neg then -Int.ofNat n else Int.ofNat n

/-- A power of ten, if there is one. -/
inductive Power : Int → List Char → Prop
  | none : Power 0 []
  | some : c = 'e' ∨ c = 'E' → Seq Sign Digits (neg, ds) p → ds ≠ [] → Power (powerOf neg (exponentValue ds)) (c :: p)

/-- A text is a decimal number: `[+-]? (D+ (. D*)? | . D+) ([eE] [+-]? D+)?`. Both forms of the middle are digits and at
most one point, with a digit before it or behind it. -/
structure Numeral.Spells (n : Numeral) (text : List Char) : Prop where
  parts : Seq Sign (Seq Digits (Seq Fraction Power)) (n.neg, n.whole, n.frac, n.exponent) text
  digit : n.whole ≠ [] ∨ n.frac ≠ []

/-! ### The longest part at the front -/

/-- A part stands at the front of a text. Any other that does, with something behind it that may follow, is shorter and has
nothing behind it. -/
structure Longest {α : Type} (R : α → List Char → Prop) (follows : Char → Prop) (cs : List Char) (v : α)
    (front rest : List Char) : Prop where
  part : R v front
  split : front ++ rest = cs
  most : ∀ w p u, R w p → (∀ c ∈ u.head?, follows c) → p ++ u <+: cs →
    (p = front ∧ w = v) ∨ u = [] ∧ p.length < front.length

section Parts

variable {α β : Type} {R : α → List Char → Prop} {Q : β → List Char → Prop} {F : Char → Prop} {v : α} {w : β}

theorem Seq.head {v : α × β} (hR : ∀ v p, R v p → ∀ c ∈ p.head?, F c) (hQ : ∀ w q, Q w q → ∀ c ∈ q.head?, F c)
    (h : Seq R Q v text) : ∀ c ∈ text.head?, F c := by
  obtain ⟨p, q, rfl, hp, hq⟩ := h
  cases p with
  | nil => exact hQ _ q hq
  | cons => exact fun c hc => hR _ _ hp c hc

theorem Longest.behind (h : Longest R F cs v front rest) (hp : front ++ q <+: cs) : q <+: rest := by
  rwa [← h.split, List.prefix_append_right_inj] at hp

theorem Longest.seq (h : Longest R F cs v front rest) (h' : Longest Q (fun _ => False) rest w front' rest')
    (hnext : ∀ w q, Q w q → ∀ c ∈ q.head?, F c) :
    Longest (Seq R Q) (fun _ => False) cs (v, w) (front ++ front') rest' := by
  refine ⟨⟨front, front', rfl, h.part, h'.part⟩, by rw [List.append_assoc, h'.split, h.split], ?_⟩
  rintro ⟨x, y⟩ _ u ⟨p, q, rfl, hp, hq⟩ hu hfront
  obtain rfl : u = [] := List.head?_eq_none_iff.mp (Option.eq_none_iff_forall_not_mem.mpr hu)
  rw [List.append_nil] at hfront
  rcases h.most x p q hp (hnext y q hq) hfront with ⟨rfl, rfl⟩ | ⟨rfl, hlt⟩
  · rcases h'.most y q [] hq hu (by simpa using h.behind hfront) with ⟨rfl, rfl⟩ | ⟨-, hlt⟩
    · exact .inl ⟨rfl, rfl⟩
    · exact .inr ⟨rfl, by simpa using hlt⟩
  · exact .inr ⟨rfl, by simp only [List.length_append, List.length_nil]; omega⟩

theorem longest_sign (cs : List Char) : ∃ front,
    Longest Sign (fun c => c ≠ '+' ∧ c ≠ '-') cs (takeSign cs).1 front (takeSign cs).2 := by
  unfold takeSign
  split
  · refine ⟨['-'], .minus, rfl, fun w p u hp hu hfront => ?_⟩
    cases hp <;> cases u <;> simp_all
  · refine ⟨['+'], .plus, rfl, fun w p u hp hu hfront => ?_⟩
    cases hp <;> cases u <;> simp_all
  next hminus hplus =>
    refine ⟨[], .none, rfl, fun w p u hp hu hfront => ?_⟩
    cases hp <;> cases cs <;> simp_all [eq_comm]

theorem longest_digits (hF : ∀ c, F c → c.isDigit = false) (cs : List Char) :
    Longest Digits F cs (cs.takeWhile Char.isDigit) (cs.takeWhile Char.isDigit) (cs.dropWhile Char.isDigit) := by
  refine ⟨⟨rfl, fun _ => List.mem_takeWhile_imp⟩, List.takeWhile_append_dropWhile, ?_⟩
  rintro _ p u ⟨rfl, hall⟩ hu ⟨r, rfl⟩
  rw [List.append_assoc, List.takeWhile_append_of_pos hall]
  cases u with
  | nil =>
    cases hmore : ([] ++ r).takeWhile Char.isDigit with
    | nil => exact .inl ⟨(List.append_nil p).symm, (List.append_nil p).symm⟩
    | cons => exact .inr ⟨rfl, by simp⟩
  | cons c u =>
    have hc : ¬c.isDigit = true := by simp [hF c (hu c rfl)]
    rw [List.cons_append, List.takeWhile_cons_of_neg hc, List.append_nil]
    exact .inl ⟨rfl, rfl⟩

end Parts

theorem longest_fraction (cs : List Char) : ∃ f front rest,
    Longest Fraction (fun c => c.isDigit = false ∧ c ≠ '.') cs f front rest ∧
      ((∃ tail, cs = '.' :: tail ∧ f = tail.takeWhile Char.isDigit ∧ rest = tail.dropWhile Char.isDigit) ∨
        (∀ tail, cs ≠ '.' :: tail) ∧ f = [] ∧ rest = cs) := by
  by_cases hpoint : ∃ tail, cs = '.' :: tail
  · obtain ⟨tail, rfl⟩ := hpoint
    have hdigits := longest_digits (fun c (hc : c.isDigit = false ∧ c ≠ '.') => hc.1) tail
    refine ⟨_, _, _, ⟨.point hdigits.part, congrArg ('.' :: ·) hdigits.split, fun w p u hp hu hfront => ?_⟩,
      .inl ⟨tail, rfl, rfl, rfl⟩⟩
    cases hp with
    | none => cases u <;> simp_all
    | point hp =>
      rcases hdigits.most w _ u hp hu (List.cons_prefix_cons.mp hfront).2 with ⟨rfl, rfl⟩ | ⟨rfl, hlt⟩
      · exact .inl ⟨rfl, rfl⟩
      · exact .inr ⟨rfl, Nat.succ_lt_succ hlt⟩
  · refine ⟨[], [], cs, ⟨.none, rfl, fun w p u hp hu hfront => ?_⟩, .inr ⟨fun tail h => hpoint ⟨tail, h⟩, rfl, rfl⟩⟩
    cases hp with
    | none => exact .inl ⟨rfl, rfl⟩
    | point =>
      obtain ⟨r, rfl⟩ := hfront
      exact absurd ⟨_, rfl⟩ hpoint

theorem Fraction.length_le (h : Fraction f p) : p.length ≤ f.length + 1 ∧ f.length ≤ p.length - 1 := by
  cases h with
  | none => simp
  | point hp => simp [hp.1]

theorem Sign.length_le (h : Sign neg p) : p.length ≤ 1 := by
  cases h <;> decide

theorem Digits.head (h : Digits ds p) : ∀ c ∈ p.head?, c ≠ '+' ∧ c ≠ '-' := by
  obtain ⟨rfl, hall⟩ := h
  intro c hc
  have hdigit := hall c (List.mem_of_mem_head? hc)
  constructor <;> (rintro rfl; cases hdigit)

theorem Fraction.head (h : Fraction f p) : ∀ c ∈ p.head?, c.isDigit = false ∧ c ≠ '+' ∧ c ≠ '-' := by
  cases h with
  | none => simp
  | point => rintro _ ⟨⟩; decide

theorem Power.head (h : Power e p) : ∀ c ∈ p.head?, (c.isDigit = false ∧ c ≠ '.') ∧ c ≠ '+' ∧ c ≠ '-' := by
  cases h with
  | none => simp
  | some hc =>
    rintro _ ⟨⟩
    rcases hc with rfl | rfl <;> decide

theorem longest_power_none (hzero : leadingExponent cs = 0) (hno : ∀ w c p, Power w (c :: p) → ¬c :: p <+: cs) :
    ∃ front rest, Longest Power (fun _ => False) cs (leadingExponent cs) front rest := by
  refine ⟨[], cs, hzero ▸ .none, rfl, fun w p u hp _ hfront => ?_⟩
  cases hp with
  | none => exact .inl ⟨rfl, hzero.symm⟩
  | some hc hpart hne => exact absurd ((List.prefix_append _ u).trans hfront) (hno _ _ _ (.some hc hpart hne))

theorem longest_power (cs : List Char) : ∃ front rest,
    Longest Power (fun _ => False) cs (leadingExponent cs) front rest := by
  cases cs with
  | nil => exact longest_power_none rfl fun w c p _ hfront => by simp at hfront
  | cons c rest =>
    by_cases hc : c = 'e' ∨ c = 'E'
    · obtain ⟨sign, hsign⟩ := longest_sign rest
      have hboth := hsign.seq (longest_digits (fun _ => False.elim) _) fun _ _ => Digits.head
      have hvalue : leadingExponent (c :: rest) =
          powerOf (takeSign rest).1 (exponentValue ((takeSign rest).2.takeWhile Char.isDigit)) := if_pos hc
      by_cases hne : (takeSign rest).2.takeWhile Char.isDigit = []
      · refine longest_power_none (by simp [hvalue, hne, exponentValue, powerOf]) fun w c' p hp hfront => ?_
        cases hp with
        | some _ hpart hds =>
          rcases hboth.most _ _ [] hpart (by simp) (by simpa using (List.cons_prefix_cons.mp hfront).2) with ⟨-, heq⟩ | ⟨-, hlt⟩
          · exact hds ((Prod.mk.inj heq).2.trans hne)
          · obtain ⟨p, q, rfl, -, rfl, -⟩ := hpart
            have hshort := hsign.part.length_le
            have hlong := List.length_pos_iff.mpr hds
            simp only [hne, List.length_append, List.length_nil] at hlt
            omega
      · refine ⟨_, _, hvalue ▸ Power.some hc hboth.part hne, congrArg (c :: ·) hboth.split, fun w p u hp hu hfront => ?_⟩
        cases hp with
        | none =>
          cases u with
          | nil => exact .inr ⟨rfl, Nat.succ_pos _⟩
          | cons c' => exact (hu c' rfl).elim
        | some _ hpart _ =>
          obtain ⟨rfl, hrest⟩ := List.cons_prefix_cons.mp hfront
          rcases hboth.most _ _ u hpart hu hrest with ⟨rfl, heq⟩ | ⟨rfl, hlt⟩
          · cases heq
            exact .inl ⟨rfl, hvalue.symm⟩
          · exact .inr ⟨rfl, Nat.succ_lt_succ hlt⟩
    · refine longest_power_none (if_neg hc) fun w c' p hp hfront => ?_
      cases hp with
      | some hc' => exact hc ((List.cons_prefix_cons.mp hfront).1 ▸ hc')

theorem head_behind_whole (h : Seq Fraction Power w q) : ∀ c ∈ q.head?, c.isDigit = false ∧ c ≠ '+' ∧ c ≠ '-' :=
  h.head (fun _ _ => Fraction.head) fun _ _ hq c hc => ⟨(hq.head c hc).1.1, (hq.head c hc).2⟩

theorem head_behind_sign (h : Seq Digits (Seq Fraction Power) w q) : ∀ c ∈ q.head?, c ≠ '+' ∧ c ≠ '-' :=
  h.head (fun _ _ => Digits.head) fun _ _ hq c hc => (head_behind_whole hq c hc).2

/-- Where neither a digit nor a point and a digit stands behind the sign, no number stands at the front. -/
theorem no_numeral {n : Numeral} (hsign : Longest Sign (fun c => c ≠ '+' ∧ c ≠ '-') cs neg sign cs₁)
    (hwhole : Longest Digits (fun c => c.isDigit = false) cs₁ [] [] cs₂)
    (hfrac : Longest Fraction (fun c => c.isDigit = false ∧ c ≠ '.') cs₂ [] front rest) (h : n.Spells text) :
    ¬text <+: cs := by
  intro hfront
  obtain ⟨⟨s, x, rfl, hs, hx⟩, hdigit⟩ := h
  rcases hsign.most _ s x hs (head_behind_sign hx) hfront with ⟨rfl, -⟩ | ⟨rfl, -⟩
  · obtain ⟨d, y, rfl, hd, hy⟩ := hx
    have hrest := hsign.behind hfront
    rcases hwhole.most _ d y hd (fun c hc => (head_behind_whole hy c hc).1) hrest with ⟨rfl, hw⟩ | ⟨-, hlt⟩
    · obtain ⟨z, q, rfl, hz, hq⟩ := hy
      rcases hfrac.most _ z q hz (fun c hc => (hq.head c hc).1) (hwhole.behind hrest) with ⟨-, hf⟩ | ⟨-, hlt⟩
      · exact hdigit.elim (· hw) (· hf)
      · have hshort : front.length ≤ 1 := hfrac.part.length_le.1
        have hlen : n.frac.length ≤ z.length - 1 := hz.length_le.2
        exact hdigit.elim (· hw) (· (List.length_eq_zero_iff.mp (by omega)))
    · exact absurd hlt (Nat.not_lt_zero _)
  · obtain ⟨d, y, hnil, hd, z, q, rfl, hz, -⟩ := hx
    obtain ⟨rfl, rfl, -⟩ : d = [] ∧ z = [] ∧ q = [] := by simpa using hnil
    exact hdigit.elim (· hd.1.symm) (· (List.length_eq_zero_iff.mp (Nat.le_zero.mp hz.length_le.2)))

theorem leadingNumeral?_parts (cs : List Char) : ∃ n front rest,
    Longest (Seq Sign (Seq Digits (Seq Fraction Power))) (fun _ => False) cs (n.neg, n.whole, n.frac, n.exponent)
      front rest ∧
    leadingNumeral? cs = (if n.whole = [] ∧ n.frac = [] then none else some n) ∧
    (n.whole = [] → n.frac = [] → ∀ m p, Numeral.Spells m p → ¬p <+: cs) := by
  obtain ⟨sign, hsign⟩ := longest_sign cs
  have hwhole := longest_digits (fun _ => id) (takeSign cs).2
  obtain ⟨f, front, rest, hfrac, hread⟩ := longest_fraction ((takeSign cs).2.dropWhile Char.isDigit)
  obtain ⟨power, rest', hpower⟩ := longest_power rest
  have hbehind := hwhole.seq (hfrac.seq hpower fun _ _ hq c hc => (hq.head c hc).1)
    fun w q hq c hc => (head_behind_whole hq c hc).1
  refine ⟨⟨_, _, f, leadingExponent rest⟩, _, _, hsign.seq hbehind fun _ _ => head_behind_sign, ?_, ?_⟩
  · simp only [leadingNumeral?]
    rcases hread with ⟨tail, htail, rfl, rfl⟩ | ⟨hno, rfl, rfl⟩
    · simp only [htail]
      simp
    · split
      next tail htail => exact absurd htail (hno tail)
      next => simp
  · intro hnone hf m p
    obtain rfl : f = [] := hf
    have hnil : (takeSign cs).2.takeWhile Char.isDigit = [] := hnone
    rw [hnil] at hwhole
    exact no_numeral hsign hwhole hfrac

theorem Digits.ascii (h : Digits ds p) : ∀ c ∈ p, c.toNat < 0x80 := by
  obtain ⟨rfl, hall⟩ := h
  exact fun c hc => Nat.lt_of_le_of_lt (isDigit_iff.mp (hall c hc)).2 (by decide)

theorem Sign.ascii (h : Sign neg text) : ∀ c ∈ text, c.toNat < 0x80 := by
  cases h with
  | none => exact List.forall_mem_nil _
  | plus => exact List.forall_mem_singleton.mpr (by decide)
  | minus => exact List.forall_mem_singleton.mpr (by decide)

theorem Numeral.Spells.ascii {n : Numeral} (h : n.Spells text) : ∀ c ∈ text, c.toNat < 0x80 := by
  obtain ⟨sign, _, rfl, hsign, whole, _, rfl, hwhole, frac, power, rfl, hfrac, hpower⟩ := h.parts
  simp only [List.forall_mem_append]
  refine ⟨hsign.ascii, hwhole.ascii, ?_, ?_⟩
  · generalize n.frac = f at hfrac
    cases hfrac with
    | none => exact List.forall_mem_nil _
    | point hds => exact List.forall_mem_cons.mpr ⟨by decide, hds.ascii⟩
  · generalize n.exponent = e at hpower
    cases hpower with
    | none => exact List.forall_mem_nil _
    | some hc hpart =>
      obtain ⟨sign, ds, rfl, hsign, hds⟩ := hpart
      simp only [List.forall_mem_cons, List.forall_mem_append]
      exact ⟨by rcases hc with rfl | rfl <;> decide, hsign.ascii, hds.ascii⟩

end Blockwork.Text
