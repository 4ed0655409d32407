import Mathlib.Data.Nat.Digits.Defs
import Blockwork.Proofs.Folding

/-! # Leading integers
Reading wraps at every digit, and so gives the number that the digits denote, reduced once. -/

namespace Blockwork

open Session

namespace Text

/-- What has a property stands in front of a rest, all of it. -/
structure IsRun {α : Type} (p : α → Bool) (front rest : List α) : Prop where
  all : ∀ x ∈ front, p x = true
  ends : ∀ x ∈ rest.head?, p x = false

section Run

variable {α : Type} {p : α → Bool} {front rest : List α}

theorem IsRun.dropWhile (h : IsRun p front rest) : (front ++ rest).dropWhile p = rest := by
  rw [List.dropWhile_append_of_pos h.all]
  cases rest with
  | nil => rfl
  | cons x => exact List.dropWhile_cons_of_neg (by simp [h.ends x rfl])

theorem IsRun.takeWhile (h : IsRun p front rest) : (front ++ rest).takeWhile p = front := by
  rw [List.takeWhile_append_of_pos h.all]
  cases rest with
  | nil => exact List.append_nil front
  | cons x => rw [List.takeWhile_cons_of_neg (by simp [h.ends x rfl]), List.append_nil]

end Run

/-- The number that digits denote, the most significant of them first. -/
def positional (base : Nat) (ds : List Nat) : Nat := Nat.ofDigits base ds.reverse

theorem positional_eq_foldl (base : Nat) (ds : List Nat) : positional base ds = ds.foldl (fun v d => base * v + d) 0 := by
  rw [positional, Nat.ofDigits_eq_foldr, List.foldr_reverse]
  simp only [Nat.add_comm, Nat.cast_id]

def decimal (ds : Bytes) : Nat := positional 10 (ds.map fun d => d.toNat - 0x30)

theorem digitsValue_eq (ds : Bytes) : digitsValue ds = Int64.ofNat (decimal ds) := by
  have hfold : ∀ a : Nat, ds.foldl (fun v d => v * 10 + Int64.ofNat (d.toNat - 0x30)) (Int64.ofNat a) =
      Int64.ofNat (ds.foldl (fun v d => 10 * v + (d.toNat - 0x30)) a) := by
    induction ds with
    | nil => exact fun a => rfl
    | cons d ds ih =>
      intro a
      have hstep : Int64.ofNat a * 10 + Int64.ofNat (d.toNat - 0x30) = Int64.ofNat (10 * a + (d.toNat - 0x30)) := by
        rw [Int64.ofNat_add, Int64.ofNat_mul, Int64.mul_comm]
        rfl
      rw [List.foldl_cons, hstep, ih, List.foldl_cons]
  rw [decimal, positional_eq_foldl, List.foldl_map]
  exact hfold 0

/-- In front of a rest, a text has blanks, at most one sign and digits, each of them as far as they go. -/
structure Divides (s blanks sign digits rest : Bytes) : Prop where
  text : s = blanks ++ (sign ++ (digits ++ rest))
  blanks : IsRun isAsciiBlank blanks (sign ++ (digits ++ rest))
  signs : sign = [] ∨ sign = [0x2D] ∨ sign = [0x2B]
  unsigned : sign = [] → ∀ b ∈ (digits ++ rest).head?, b ≠ 0x2D ∧ b ≠ 0x2B
  digits : IsRun isDigit digits rest

/-- What digits denote after a sign. -/
def signed (sign digits : Bytes) : Int :=
  if sign = [0x2D] then -(decimal digits : Int) else decimal digits

theorem leadingInt_eq {s blanks sign digits rest : Bytes} (h : Divides s blanks sign digits rest) :
    leadingInt s = Int64.ofInt (signed sign digits) := by
  rw [leadingInt, h.text, h.blanks.dropWhile]
  rcases h.signs with rfl | rfl | rfl
  · have hfirst := h.unsigned rfl
    rw [List.nil_append, signed, if_neg (by decide), Int64.ofInt_eq_ofNat, ← digitsValue_eq]
    split
    next heq =>
      rw [heq] at hfirst
      exact absurd rfl (hfirst _ rfl).1
    next heq =>
      rw [heq] at hfirst
      exact absurd rfl (hfirst _ rfl).2
    next => rw [h.digits.takeWhile]
  · rw [signed, if_pos rfl, ← Int64.neg_ofNat, ← digitsValue_eq]
    exact congrArg (-digitsValue ·) h.digits.takeWhile
  · rw [signed, if_neg (by decide), Int64.ofInt_eq_ofNat, ← digitsValue_eq]
    exact congrArg digitsValue h.digits.takeWhile

/-! ### Writing -/

theorem encode_ascii {cs : List Char} (h : ∀ c ∈ cs, c.toNat < 0x80) : encode cs = cs.map fun c => UInt8.ofNat c.toNat := by
  induction cs with
  | nil => rfl
  | cons c cs ih =>
    obtain ⟨hc, hcs⟩ := List.forall_mem_cons.mp h
    have hone : String.utf8EncodeChar c = [UInt8.ofNat c.toNat] := if_pos (Nat.le_of_lt_succ hc)
    rw [encode_cons, ih hcs, hone]
    rfl

theorem isDigit_iff {c : Char} : c.isDigit = true ↔ 0x30 ≤ c.toNat ∧ c.toNat ≤ 0x39 := by
  simp only [Char.isDigit, Bool.and_eq_true, decide_eq_true_eq, ge_iff_le, UInt32.le_iff_toNat_le]
  rfl

theorem isDigit_byte (h : k < 256) : isDigit (UInt8.ofNat k) = true ↔ 0x30 ≤ k ∧ k ≤ 0x39 := by
  simp only [isDigit, Bool.and_eq_true, decide_eq_true_eq, UInt8.le_iff_toNat_le, toNat_byte h]
  rfl

theorem isRun_toDigits (n : Nat) : IsRun isDigit (encode (Nat.toDigits 10 n)) [] ∧
    decimal (encode (Nat.toDigits 10 n)) = n := by
  have hall : ∀ c ∈ Nat.toDigits 10 n, 0x30 ≤ c.toNat ∧ c.toNat ≤ 0x39 := fun c hc =>
    isDigit_iff.mp (Nat.isDigit_of_mem_toDigits (by decide) (by decide) hc)
  have hlt : ∀ c ∈ Nat.toDigits 10 n, c.toNat < 256 := fun c hc => Nat.lt_of_le_of_lt (hall c hc).2 (by decide)
  have hbytes := encode_ascii fun c hc => Nat.lt_of_le_of_lt (hall c hc).2 (by decide)
  rw [hbytes]
  constructor
  · refine ⟨fun b hb => ?_, fun b hb => by cases hb⟩
    obtain ⟨c, hc, rfl⟩ := List.mem_map.mp hb
    exact (isDigit_byte (hlt c hc)).mpr (hall c hc)
  · have hvalues : ((Nat.toDigits 10 n).map fun c => UInt8.ofNat c.toNat).map (fun d => d.toNat - 0x30) =
        (Nat.toDigits 10 n).map fun c => c.toNat - 0x30 := by
      rw [List.map_map]
      exact List.map_congr_left fun c hc => congrArg (· - 0x30) (toNat_byte (hlt c hc))
    rw [decimal, hvalues, positional_eq_foldl, List.foldl_map]
    exact Nat.ofDigitChars_ten_toDigits

theorem formatInt_eq (v : Int64) :
    formatInt v = (if v.toInt < 0 then [0x2D] else []) ++ encode (Nat.toDigits 10 v.toInt.natAbs) := by
  rw [formatInt, Int.toString_eq_repr, Int.repr_eq_if]
  by_cases hv : v.toInt < 0
  · have habs : (-v.toInt).toNat = v.toInt.natAbs := by omega
    rw [if_neg (by omega), if_pos hv, habs, ofString_append, ofString, ofString, Nat.toList_repr]
    rfl
  · have habs : v.toInt.toNat = v.toInt.natAbs := by omega
    rw [if_pos (by omega), if_neg hv, habs, ofString, Nat.toList_repr]
    rfl

theorem isDigit_plain {b : UInt8} : isDigit b = true → isAsciiBlank b = false ∧ b ≠ 0x2D ∧ b ≠ 0x2B := by
  have hall : ∀ k < 256, isDigit (UInt8.ofNat k) = true →
      isAsciiBlank (UInt8.ofNat k) = false ∧ UInt8.ofNat k ≠ 0x2D ∧ UInt8.ofNat k ≠ 0x2B := by decide +kernel
  rw [← UInt8.ofNat_toNat (x := b)]
  exact hall _ b.toNat_lt

theorem formatInt_divides (v : Int64) : Divides (formatInt v) [] (if v.toInt < 0 then [0x2D] else [])
    (encode (Nat.toDigits 10 v.toInt.natAbs)) [] := by
  obtain ⟨hrun, -⟩ := isRun_toDigits v.toInt.natAbs
  have htext := formatInt_eq v
  by_cases hv : v.toInt < 0
  · rw [if_pos hv] at htext ⊢
    refine ⟨by simpa using htext, ⟨List.forall_mem_nil _, fun b hb => ?_⟩, .inr (.inl rfl), (fun h => by cases h), hrun⟩
    obtain rfl := Option.some.inj hb
    rfl
  · rw [if_neg hv] at htext ⊢
    have hfirst : ∀ b ∈ (encode (Nat.toDigits 10 v.toInt.natAbs) ++ []).head?, isDigit b = true := by
      intro b hb
      rw [List.append_nil] at hb
      exact hrun.all b (List.mem_of_head? hb)
    exact ⟨by simpa using htext, ⟨List.forall_mem_nil _, fun b hb => (isDigit_plain (hfirst b hb)).1⟩, .inl rfl,
      fun _ b hb => (isDigit_plain (hfirst b hb)).2, hrun⟩

theorem leadingInt_formatInt (v : Int64) : leadingInt (formatInt v) = v := by
  rw [leadingInt_eq (formatInt_divides v), signed, (isRun_toDigits _).2]
  by_cases hv : v.toInt < 0
  · rw [if_pos hv, if_pos rfl, Int.ofNat_natAbs_of_nonpos (Int.le_of_lt hv), Int.neg_neg, Int64.ofInt_toInt]
  · rw [if_neg hv, if_neg (by decide), Int.natAbs_of_nonneg (Int.not_lt.mp hv), Int64.ofInt_toInt]

end Text

namespace Entry

/-- The ways to write an integer as a string: as it is, and from a box. -/
def writings (v : Int64) (s : Session) : List (Value × Session) :=
  let boxed := anyFromInteger.run [.integer v] s
  [stringFromInteger.run [.integer v] s, stringFromAny.run [boxed.1] boxed.2]

/-- A call gave a string that roots keep and that spells an integer, unless a fatal condition is pending. -/
def Spells (v : Int64) (r : Value × Session) : Prop :=
  r.2.abort.isSome = true ∨
    ∃ p, r.1 = .string p ∧ r.2.memory.Sound ∧ r.2.memory.Held r.2.memory.roots p ∧ r.2.bytes p = Text.formatInt v

theorem spells_allocString {s : Session} (hm : s.memory.Sound) (v : Int64) :
    Spells v (stringResult (s.allocString (Text.formatInt v))) := by
  obtain ⟨hkeeps, hnew⟩ := keeps_allocString hm (b := Text.formatInt v) rfl
  exact hnew.imp_right fun hp => ⟨_, rfl, hkeeps.sound, hp⟩

theorem spells_writings (hm : s.memory.Sound) (h : string ∈ writings v s) : Spells v string := by
  rcases List.mem_pair.mp h with rfl | rfl
  · exact spells_allocString hm v
  · rcases hbox : s.allocAny (.integer v) with ⟨q, s'⟩
    have hrun : anyFromInteger.run [.integer v] s = (.any q, s') := congrArg anyResult hbox
    rw [hrun]
    obtain ⟨hsound, habort | ⟨hread, -⟩⟩ := allocAny_granted hm (fun h => by cases h) (fun p hp => by cases hp) hbox
    · exact Or.inl (isSome_abort (stringFromAny.recalls _ _) habort)
    · show Spells v (stringResult (s'.stringOf (s'.boxed q)))
      rw [hread]
      exact spells_allocString hsound v

/-- Of blanks, at most one sign and digits, a text reads as the number that the digits denote, in two's complement. An
integer that is written as a string reads as itself, from a box or not, unless memory was refused. -/
theorem integers_wrap {text blanks sign digits rest : Bytes} (h : Text.Divides text blanks sign digits rest) :
    (Text.leadingInt text).toInt = Int.bmod (Text.signed sign digits) (2 ^ 64) ∧
    ∀ (s : Session) (v : Int64), s.memory.Sound → ∀ string ∈ writings v s,
      let boxed := anyFromString.run [string.1] string.2
      (string.2.abort.isSome = true ∨ (stringToInteger.run [string.1] string.2).1 = .integer v) ∧
        (boxed.2.abort.isSome = true ∨ (integerFromAny.run [boxed.1] boxed.2).1 = .integer v) := by
  constructor
  · rw [Text.leadingInt_eq h, Int64.toInt_ofInt]
    rfl
  · rintro s v hm ⟨_, s'⟩ hstring
    rcases spells_writings hm hstring with habort | ⟨p, rfl, hsound, hroot, hbytes⟩
    · exact ⟨Or.inl habort, Or.inl (isSome_abort (anyFromString.recalls _ _) habort)⟩
    · have hback : s'.integerOf (.string p) = v := (congrArg Text.leadingInt hbytes).trans (Text.leadingInt_formatInt v)
      have hsafe : ∀ q ∈ (Boxed.string p).pointers, s'.memory.Safe q := fun q hq => by
        obtain ⟨-, rfl⟩ := Heap.mem_pointers_string.mp hq
        exact hroot.safe (.refl _)
      rcases hbox : s'.allocAny (.string p) with ⟨q, s''⟩
      have hrun : anyFromString.run [.string p] s' = (.any q, s'') := congrArg anyResult hbox
      rw [hrun]
      refine ⟨Or.inr (congrArg Value.integer hback), ?_⟩
      refine (allocAny_granted hsound (fun h => by cases h) hsafe hbox).2.imp_right ?_
      rintro ⟨hread, hsame⟩
      have hcast : Value.integer (s''.integerOf (.string p)) = .integer v :=
        (hsame .integer).trans (congrArg Value.integer hback)
      rw [← hread] at hcast
      exact hcast

/-- The digits past the range wrap around, and what follows them is ignored. -/
theorem integers_wrap_past : Text.Divides (Text.ofString " \t-9223372036854775809x") [0x20, 0x09] [0x2D]
      (Text.ofString "9223372036854775809") [0x78] ∧
    (Text.leadingInt (Text.ofString " \t-9223372036854775809x")).toInt = 9223372036854775807 := by
  have hdivides : Text.Divides (Text.ofString " \t-9223372036854775809x") [0x20, 0x09] [0x2D]
      (Text.ofString "9223372036854775809") [0x78] := by
    refine ⟨by decide +kernel, ⟨List.all_eq_true.mp rfl, fun x hx => ?_⟩, by decide, by simp,
      ⟨List.all_eq_true.mp (by decide +kernel), fun x hx => ?_⟩⟩ <;> cases hx <;> rfl
  refine ⟨hdivides, (integers_wrap hdivides).1.trans ?_⟩
  decide +kernel

end Entry

end Blockwork
