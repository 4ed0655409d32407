import Mathlib.Data.List.TakeWhile
import Blockwork.Proofs.Parsing.Integers

/-! # Colors
Of a mark and six or eight places, a text reads as a color whose channels are the digits. -/

namespace Blockwork.Text

def hexDigits : List Char := "0123456789abcdef".toList

def hexadecimal (ds : List Char) : Nat := positional 16 (ds.map fun d => hexDigits.idxOf d.toLower)

theorem toLower_high {c : Char} (h : 0x80 ≤ c.toNat) : c.toLower ∉ hexDigits := by
  have hlow : hexDigits.all (·.toNat < 0x80) = true := by decide
  have hsame : c.toLower = c := dif_neg fun hc => by
    have hle : c.toNat ≤ 0x5A := UInt32.le_iff_toNat_le.mp hc.2
    omega
  intro hc
  have hlt := of_decide_eq_true (List.all_eq_true.mp hlow _ hc)
  rw [hsame] at hlt
  omega

theorem hexDigit?_eq (c : Char) :
    hexDigit? c = if c.toLower ∈ hexDigits then some (hexDigits.idxOf c.toLower) else none := by
  by_cases hc : c.toNat < 0x80
  · have hall : ∀ k < 0x80, hexDigit? (Char.ofNat k) = if (Char.ofNat k).toLower ∈ hexDigits
        then some (hexDigits.idxOf (Char.ofNat k).toLower) else none := by decide +kernel
    rw [← Char.ofNat_toNat c]
    exact hall _ hc
  · have hhigh : ∀ d : Char, d.toNat < 0x80 → ¬ c ≤ d := fun d hd hle => by
      have hle : c.toNat ≤ d.toNat := UInt32.le_iff_toNat_le.mp hle
      omega
    rw [if_neg (toLower_high (Nat.le_of_not_lt hc)), hexDigit?, if_neg fun h => hhigh '9' (by decide) h.2,
      if_neg fun h => hhigh 'f' (by decide) h.2, if_neg fun h => hhigh 'F' (by decide) h.2]

theorem isBlank_hexDigit {d : Char} (h : d.toLower ∈ hexDigits) : isBlank d = false := by
  have hall : ∀ k < 0x80, (Char.ofNat k).toLower ∈ hexDigits → isBlank (Char.ofNat k) = false := by decide +kernel
  have hlow : d.toNat < 0x80 := Nat.lt_of_not_le fun hd => toLower_high hd h
  rw [← Char.ofNat_toNat d] at h ⊢
  exact hall _ hlow h

theorem hexValue?_eq_some {ds : List Char} :
    hexValue? ds = some v ↔ (∀ d ∈ ds, d.toLower ∈ hexDigits) ∧ hexadecimal ds = v := by
  have hfold : ∀ a, ds.foldlM (fun v d => (hexDigit? d).map (v * 16 + ·)) a = some v ↔
      (∀ d ∈ ds, d.toLower ∈ hexDigits) ∧ ds.foldl (fun v d => 16 * v + hexDigits.idxOf d.toLower) a = v := by
    induction ds with
    | nil => simp
    | cons d ds ih =>
      intro a
      rw [List.foldlM_cons, hexDigit?_eq]
      by_cases hd : d.toLower ∈ hexDigits
      · simp [hd, ih, Nat.mul_comm]
      · simp [hd]
  rw [hexadecimal, positional_eq_foldl, List.foldl_map]
  exact hfold 0

theorem unsignedHex?_eq_some {hex : List Char} : unsignedHex? hex = some v ↔ ∃ sign digits, hex = sign ++ digits ∧
    (sign = [] ∨ sign = ['+']) ∧ digits ≠ [] ∧ (∀ d ∈ digits, d.toLower ∈ hexDigits) ∧ hexadecimal digits = v := by
  constructor
  · intro h
    unfold unsignedHex? at h
    split at h
    next => cases h
    next ds =>
      split at h
      next => cases h
      next hne => exact ⟨['+'], ds, rfl, .inr rfl, by simpa using hne, hexValue?_eq_some.mp h⟩
    next hne _ => exact ⟨[], hex, rfl, .inl rfl, hne, hexValue?_eq_some.mp h⟩
  · rintro ⟨sign, digits, rfl, rfl | rfl, hne, hall, hvalue⟩
    · cases digits with
      | nil => exact absurd rfl hne
      | cons d ds =>
        have hplus : d ≠ '+' := by
          rintro rfl
          exact absurd (hall _ List.mem_cons_self) (by decide)
        unfold unsignedHex?
        split
        next heq => cases heq
        next heq => exact absurd (List.cons.inj heq).1 hplus
        next => exact hexValue?_eq_some.mpr ⟨hall, hvalue⟩
    · simp [unsignedHex?, hne, hexValue?_eq_some.mpr ⟨hall, hvalue⟩]

theorem trim_parts (cs : List Char) :
    ∃ before after, (∀ c ∈ before ++ after, isBlank c = true) ∧ cs = before ++ (trim cs ++ after) := by
  refine ⟨cs.takeWhile isBlank, ((trimStart cs).reverse.takeWhile isBlank).reverse, fun c hc => ?_, ?_⟩
  · rw [List.mem_append, List.mem_reverse] at hc
    exact hc.elim List.mem_takeWhile_imp List.mem_takeWhile_imp
  · rw [trim, trimStart, ← List.reverse_append, List.takeWhile_append_dropWhile, List.reverse_reverse, trimStart,
      List.takeWhile_append_dropWhile]

theorem trim_between {before ds after : List Char} (h : ∀ c ∈ before ++ after, isBlank c = true) (hne : ds ≠ [])
    (hds : ∀ c ∈ ds, isBlank c = false) : trim (before ++ (ds ++ after)) = ds := by
  obtain ⟨hbefore, hafter⟩ := List.forall_mem_append.mp h
  have hfront : IsRun isBlank before (ds ++ after) := ⟨hbefore, fun c hc => by
    rw [List.head?_append_of_ne_nil _ hne] at hc
    exact hds c (List.mem_of_head? hc)⟩
  have hback : IsRun isBlank after.reverse ds.reverse := ⟨by simpa using hafter, fun c hc =>
    hds c (List.mem_reverse.mp (List.mem_of_head? hc))⟩
  rw [trim, trimStart, trimStart, hfront.dropWhile, List.reverse_append, hback.dropWhile, List.reverse_reverse]

/-! ### Six or eight places -/

theorem hexadecimal_ff (ds : List Char) : hexadecimal (ds ++ ['f', 'f']) = hexadecimal ds * 256 + 255 := by
  simp only [hexadecimal, positional_eq_foldl, List.map_append, List.foldl_append]
  show 16 * (16 * _ + 15) + 15 = _
  omega

theorem hexadecimal_lt {ds : List Char} (h : ∀ d ∈ ds, d.toLower ∈ hexDigits) (hlength : ds.length ≤ 8) :
    hexadecimal ds < 2 ^ 32 := by
  have hplaces : ∀ k ∈ (ds.map fun d => hexDigits.idxOf d.toLower).reverse, k < 16 := by
    intro k hk
    obtain ⟨d, hd, rfl⟩ := List.mem_map.mp (List.mem_reverse.mp hk)
    exact List.idxOf_lt_length_iff.mpr (h d hd)
  have hlt := Nat.ofDigits_lt_base_pow_length (by decide) hplaces
  rw [List.length_reverse, List.length_map] at hlt
  exact Nat.lt_of_lt_of_le hlt (Nat.pow_le_pow_right (by decide) hlength)

theorem hexValue?_hexText (width n : Nat) : hexValue? (hexText width n) = some (n % 16 ^ width) := by
  induction width generalizing n with
  | zero => rw [Nat.pow_zero, Nat.mod_one]; rfl
  | succ width ih =>
    have hdigit : ∀ k < 16, hexDigit? (Nat.digitChar k) = some k := by decide
    rw [hexText, hexValue?, List.foldlM_append]
    show (hexValue? (hexText width (n / 16)) >>= _) = _
    rw [ih]
    simp only [List.foldlM_cons, hdigit _ (Nat.mod_lt n (by decide : 0 < 16))]
    rw [Nat.pow_succ', Nat.mod_mul, Nat.mul_comm, Nat.add_comm]
    rfl

theorem length_hexText (width n : Nat) : (hexText width n).length = width := by
  induction width generalizing n with
  | zero => rfl
  | succ width ih => rw [hexText, List.length_append, ih, List.length_singleton]

/-- A text that has the form of a color: between blanks a mark and digits of either case, with a plus sign or not. -/
structure ColorForm (text sign digits : List Char) : Prop where
  text : ∃ before after, (∀ c ∈ before ++ after, isBlank c = true) ∧ text = before ++ ('#' :: (sign ++ digits) ++ after)
  signs : sign = [] ∨ sign = ['+']
  digits : ∀ d ∈ digits, d.toLower ∈ hexDigits

theorem ColorForm.trim {text sign digits : List Char} (h : ColorForm text sign digits) :
    trim text = '#' :: (sign ++ digits) := by
  obtain ⟨before, after, hblank, rfl⟩ := h.text
  refine trim_between hblank (List.cons_ne_nil _ _) ?_
  refine List.forall_mem_cons.mpr ⟨by decide, List.forall_mem_append.mpr ⟨?_, fun d hd => isBlank_hexDigit (h.digits d hd)⟩⟩
  rcases h.signs with rfl | rfl
  · exact List.forall_mem_nil _
  · exact List.forall_mem_singleton.mpr (by decide)

theorem parseColor_eq_some {text : List Char} : parseColor text = some v ↔ ∃ sign digits, ColorForm text sign digits ∧
    ((sign ++ digits).length = 6 ∧ v = Int64.ofNat (hexadecimal (digits ++ ['f', 'f'])) ∨
      (sign ++ digits).length = 8 ∧ v = Int64.ofNat (hexadecimal digits)) := by
  constructor
  · intro h
    unfold parseColor at h
    split at h
    next hex htrim =>
      obtain ⟨before, after, hblank, htext⟩ := trim_parts text
      rw [htrim] at htext
      split at h
      next n hhex hlength =>
        obtain ⟨sign, digits, rfl, hsign, -, hall, rfl⟩ := unsignedHex?_eq_some.mp hhex
        refine ⟨sign, digits, ⟨⟨before, after, hblank, htext⟩, hsign, hall⟩, .inl ⟨hlength, ?_⟩⟩
        rw [hexadecimal_ff, Option.some.inj h]
      next n hhex hlength =>
        obtain ⟨sign, digits, rfl, hsign, -, hall, rfl⟩ := unsignedHex?_eq_some.mp hhex
        exact ⟨sign, digits, ⟨⟨before, after, hblank, htext⟩, hsign, hall⟩, .inr ⟨hlength, (Option.some.inj h).symm⟩⟩
      next => cases h
    next => cases h
  · rintro ⟨sign, digits, hform, hplaces⟩
    have hne : digits ≠ [] := by
      rintro rfl
      rcases hform.signs with rfl | rfl <;> simp at hplaces
    have hhex := unsignedHex?_eq_some.mpr ⟨sign, digits, rfl, hform.signs, hne, hform.digits, rfl⟩
    rw [parseColor, hform.trim]
    rcases hplaces with ⟨hlength, rfl⟩ | ⟨hlength, rfl⟩
    · simp only [hhex, hlength, hexadecimal_ff]
    · simp only [hhex, hlength]

/-- A text reads as a color exactly if it has the form of one, with six places, which two more make opaque, or with eight;
a plus sign takes a place. A color that is written as a text reads as its low 32 bits. -/
theorem colors_denote (text : List Char) (v : Int64) :
    (parseColor text = some v ↔ ∃ sign digits, ColorForm text sign digits ∧
      ((sign ++ digits).length = 6 ∧ v.toInt = hexadecimal (digits ++ ['f', 'f']) ∨
        (sign ++ digits).length = 8 ∧ v.toInt = hexadecimal digits)) ∧
    ∃ w : Int64, parseColor (lossy (formatColor v)) = some w ∧ w.toInt = v.toInt % 2 ^ 32 := by
  have hword : ∀ n < 2 ^ 32, (v = Int64.ofNat n ↔ v.toInt = n) := fun n hn => by
    rw [← Int64.toInt_inj, Int64.toInt_ofNat_of_lt (by omega)]
  constructor
  · rw [parseColor_eq_some]
    refine exists_congr fun sign => exists_congr fun digits => and_congr_right fun hform =>
      or_congr (and_congr_right fun hlength => hword _ (hexadecimal_lt ?_ ?_))
        (and_congr_right fun hlength => hword _ (hexadecimal_lt hform.digits ?_))
    · exact List.forall_mem_append.mpr ⟨hform.digits, by simp; decide⟩
    · simp only [List.length_append, List.length_cons, List.length_nil] at hlength ⊢
      omega
    · rw [List.length_append] at hlength
      omega
  · obtain ⟨n, hn⟩ := Int.eq_ofNat_of_zero_le (Int.emod_nonneg v.toInt (by decide : (2 : Int) ^ 32 ≠ 0))
    have hlt : n < 16 ^ 8 := by omega
    obtain ⟨hdigits, hvalue⟩ := hexValue?_eq_some.mp (hexValue?_hexText 8 n)
    rw [Nat.mod_eq_of_lt hlt] at hvalue
    have hform : ColorForm ('#' :: hexText 8 n) [] (hexText 8 n) :=
      ⟨⟨[], [], List.forall_mem_nil _, (List.append_nil _).symm⟩, .inl rfl, hdigits⟩
    refine ⟨Int64.ofNat n, ?_, (Int64.toInt_ofNat_of_lt (by omega)).trans hn.symm⟩
    have hwritten : formatColor v = encode ('#' :: hexText 8 n) := by
      rw [formatColor, show v.toInt % 0x100000000 = n from hn, Int.toNat_natCast]
    rw [hwritten, lossy_encode]
    exact parseColor_eq_some.mpr ⟨_, _, hform, .inr ⟨length_hexText 8 n, by rw [hvalue]⟩⟩

/-- The plus sign stands where the first of six digits would. -/
theorem parseColor_plus : parseColor "#+12345".toList = some 0x012345FF := by decide +kernel

end Blockwork.Text
