import Blockwork.Text.Letters

/-! # Cutting text at letters
A text is the bytes before its first letter and then its letters, one after the other. -/

namespace Blockwork.Text

/-- The letters of a text: each byte that starts one, with the bytes up to the next such byte. -/
def letters : Bytes → List Bytes
  | [] => []
  | b :: rest =>
    if startsLetter b then (b :: rest.takeWhile fun c => !startsLetter c) :: letters rest else letters rest

/-- The bytes between two offsets, if these are in order and inside the text. -/
def slice? (s : Bytes) (start stop : Nat) : Option Bytes :=
  if start ≤ stop ∧ stop ≤ s.length then some ((s.drop start).take (stop - start)) else none

/-- `substring` with every index looked up, and nothing if one is out of range. -/
def substring? (s : Bytes) (first last : Int64) : Option Bytes :=
  let first := max first.toInt 1
  let last := last.toInt
  if last ≤ 0 ∨ first > last then some []
  else
    let bs := bounds s
    let count := bs.length - 1
    if first > count then some []
    else
      (bs[first.toNat - 1]?).bind fun start =>
        (bs[min last.toNat count]?).bind fun stop => slice? s start stop

/-! ### Letters and offsets -/

theorem letters_start (h : startsLetter b = true) (rest : Bytes) :
    letters (b :: rest) = (b :: rest.takeWhile fun c => !startsLetter c) :: letters rest := by
  rw [letters, if_pos h]

theorem letters_inner (h : startsLetter b = false) (rest : Bytes) : letters (b :: rest) = letters rest := by
  rw [letters, if_neg (by simp [h])]

theorem flatten_letters (s : Bytes) : (letters s).flatten = s.dropWhile fun b => !startsLetter b := by
  induction s with
  | nil => rfl
  | cons b rest ih =>
    cases hb : startsLetter b with
    | true =>
      rw [letters_start hb, List.flatten_cons, ih, List.cons_append, List.takeWhile_append_dropWhile]
      simp [hb]
    | false => simp [letters_inner hb, ih, hb]

theorem letter_shape (hl : l ∈ letters s) :
    ∃ b tail, l = b :: tail ∧ startsLetter b = true ∧ ∀ c ∈ tail, startsLetter c = false := by
  induction s with
  | nil => cases hl
  | cons b rest ih =>
    cases hb : startsLetter b with
    | true =>
      rw [letters_start hb] at hl
      rcases List.mem_cons.mp hl with rfl | hl
      · exact ⟨b, _, rfl, hb, fun c hc => by simpa using List.all_eq_true.mp List.all_takeWhile c hc⟩
      · exact ih hl
    | false =>
      rw [letters_inner hb] at hl
      exact ih hl

theorem length_letters (s : Bytes) : (letters s).length = s.countP startsLetter := by
  induction s with
  | nil => rfl
  | cons b rest ih =>
    cases hb : startsLetter b with
    | true => rw [letters_start hb, List.length_cons, ih, List.countP_cons_of_pos hb]
    | false => rw [letters_inner hb, ih, List.countP_cons_of_neg (by simp [hb])]

theorem length_startsFrom (i : Nat) (s : Bytes) : (startsFrom i s).length = (letters s).length := by
  induction s generalizing i with
  | nil => rfl
  | cons b rest ih =>
    cases hb : startsLetter b with
    | true => simp [startsFrom, letters_start hb, hb, ih]
    | false => simp [startsFrom, letters_inner hb, hb, ih]

theorem length_bounds (s : Bytes) : (bounds s).length - 1 = (letters s).length := by
  simp [bounds, length_startsFrom]

theorem getElem?_startsFrom (i : Nat) (s : Bytes) (h : j ≤ (letters s).length) :
    (startsFrom i s ++ [i + s.length])[j]? =
      some (i + (s.takeWhile fun b => !startsLetter b).length + ((letters s).take j).flatten.length) := by
  induction s generalizing i j with
  | nil =>
    obtain rfl : j = 0 := Nat.le_zero.mp h
    rfl
  | cons b rest ih =>
    have hend : i + (b :: rest).length = i + 1 + rest.length := by
      rw [List.length_cons]
      omega
    rw [hend]
    cases hb : startsLetter b with
    | false =>
      rw [letters_inner hb] at h ⊢
      rw [startsFrom, if_neg (by simp [hb]), ih (i + 1) h, List.takeWhile_cons_of_pos (by simp [hb]), List.length_cons]
      congr 1
      omega
    | true =>
      rw [letters_start hb] at h ⊢
      rw [startsFrom, if_pos hb, List.takeWhile_cons_of_neg (by simp [hb])]
      cases j with
      | zero => simp
      | succ j =>
        rw [List.cons_append, List.getElem?_cons_succ, ih (i + 1) (Nat.le_of_succ_le_succ h)]
        simp only [List.take_succ_cons, List.flatten_cons, List.length_append, List.length_cons, List.length_nil]
        congr 1
        omega

def offset (s : Bytes) (j : Nat) : Nat :=
  (s.takeWhile fun b => !startsLetter b).length + ((letters s).take j).flatten.length

theorem getElem?_bounds (h : j ≤ (letters s).length) : (bounds s)[j]? = some (offset s j) := by
  have hstarts := getElem?_startsFrom 0 s h
  rw [Nat.zero_add, Nat.zero_add] at hstarts
  exact hstarts

theorem flatten_take_append (s : Bytes) (h : j ≤ k) : ((letters s).take k).flatten =
    ((letters s).take j).flatten ++ (((letters s).take k).drop j).flatten := by
  have htake : (letters s).take j = ((letters s).take k).take j := by rw [List.take_take, Nat.min_eq_left h]
  rw [htake, ← List.flatten_append, List.take_append_drop]

theorem offset_le (s : Bytes) (h : j ≤ k) : offset s j ≤ offset s k := by
  rw [offset, offset, flatten_take_append s h, List.length_append]
  omega

theorem offset_le_length (s : Bytes) (k : Nat) : offset s k ≤ s.length := by
  have hsplit := congrArg List.length (List.takeWhile_append_dropWhile (p := fun b => !startsLetter b) (l := s))
  have hflat := congrArg List.length (congrArg List.flatten (List.take_append_drop k (letters s)))
  rw [List.flatten_append, List.length_append, flatten_letters] at hflat
  rw [List.length_append] at hsplit
  rw [offset]
  omega

theorem slice_letters (s : Bytes) (h : j ≤ k) :
    slice? s (offset s j) (offset s k) = some (((letters s).take k).drop j).flatten := by
  rw [slice?, if_pos ⟨offset_le s h, offset_le_length s k⟩]
  congr 1
  have hs : s = ((s.takeWhile fun b => !startsLetter b) ++ ((letters s).take j).flatten) ++
      ((((letters s).take k).drop j).flatten ++ ((letters s).drop k).flatten) := by
    rw [List.append_assoc, ← List.append_assoc (List.flatten _), ← flatten_take_append s h, ← List.flatten_append,
      List.take_append_drop, flatten_letters, List.takeWhile_append_dropWhile]
  have hwidth : offset s k - offset s j = (((letters s).take k).drop j).flatten.length := by
    rw [offset, offset, flatten_take_append s h, List.length_append]
    omega
  have hdrop := congrArg (List.drop (offset s j)) hs
  rw [List.drop_left' (by rw [List.length_append, offset])] at hdrop
  rw [hwidth, hdrop, List.take_left]

/-! ### Cuts -/

/-- Letters `first` to `last` of a text, counted from one, as far as there are such. -/
def cut (s : Bytes) (first last : Int64) : Bytes :=
  (((letters s).take last.toInt.toNat).drop (max first.toInt 1 - 1).toNat).flatten

theorem cut_eq_nil {first last : Int64} (h : min last.toInt (letters s).length < max first.toInt 1) : cut s first last = [] := by
  have hnone : ((letters s).take last.toInt.toNat).drop (max first.toInt 1 - 1).toNat = [] := by
    apply List.drop_eq_nil_of_le
    rw [List.length_take]
    omega
  rw [cut, hnone, List.flatten_nil]

theorem substring?_eq (s : Bytes) (first last : Int64) : substring? s first last = some (cut s first last) := by
  simp only [substring?, length_bounds]
  split
  next hempty => rw [cut_eq_nil (by omega)]
  next hrange =>
    split
    next hpast => rw [cut_eq_nil (by omega)]
    next hin =>
      have hstart : (max first.toInt 1).toNat - 1 = (max first.toInt 1 - 1).toNat := by omega
      rw [getElem?_bounds (by omega), getElem?_bounds (Nat.min_le_right _ _), Option.bind_some, Option.bind_some,
        slice_letters s (by omega), cut, hstart, ← List.take_eq_take_min]

theorem substring_of_substring? (h : substring? s first last = some t) : substring s first last = t := by
  unfold substring? at h
  unfold substring
  simp only at h ⊢
  split at h
  next hempty => rw [if_pos hempty, Option.some.inj h]
  next hrange =>
    rw [if_neg hrange]
    split at h
    next hpast => rw [if_pos hpast, Option.some.inj h]
    next hin =>
      obtain ⟨start, hstart, h⟩ := Option.bind_eq_some_iff.mp h
      obtain ⟨stop, hstop, h⟩ := Option.bind_eq_some_iff.mp h
      rw [if_neg hin, List.getD_eq_getElem?_getD, List.getD_eq_getElem?_getD, hstart, hstop]
      unfold slice? at h
      split at h
      · exact Option.some.inj h
      · cases h

theorem substring_eq_cut (s : Bytes) (first last : Int64) : substring s first last = cut s first last :=
  substring_of_substring? (substring?_eq s first last)

theorem letterAt_eq (s : Bytes) (i : Int64) :
    letterAt s i = if 1 ≤ i.toInt then (letters s).getD (i.toInt.toNat - 1) [] else [] := by
  rw [letterAt, substring_eq_cut]
  split
  next hi =>
    obtain ⟨k, hk⟩ : ∃ k, i.toInt.toNat = k + 1 := ⟨i.toInt.toNat - 1, by omega⟩
    have hfirst : (max i.toInt 1 - 1).toNat = k := by omega
    rw [cut, hfirst, hk, Nat.add_sub_cancel, List.drop_take, Nat.add_sub_cancel_left, List.getD_eq_getElem?_getD]
    cases hget : (letters s)[k]? with
    | none =>
      rw [List.drop_eq_nil_of_le (List.getElem?_eq_none_iff.mp hget)]
      rfl
    | some l =>
      obtain ⟨hlt, rfl⟩ := List.getElem?_eq_some_iff.mp hget
      rw [List.drop_eq_getElem_cons hlt, List.take_succ_cons, List.take_zero, List.flatten_singleton]
      rfl
  next hi => exact cut_eq_nil (by omega)

theorem cut_append {k next n : Int64} (s : Bytes) (hk : 0 ≤ k.toInt) (hkn : k.toInt ≤ n.toInt) (hnext : next.toInt = k.toInt + 1) :
    cut s 1 k ++ cut s next n = cut s 1 n := by
  have hone : (max (1 : Int64).toInt 1 - 1).toNat = 0 := rfl
  have hmid : (max next.toInt 1 - 1).toNat = k.toInt.toNat := by omega
  rw [cut, cut, cut, hone, hmid, List.drop_zero, List.drop_zero]
  exact (flatten_take_append s (by omega)).symm

/-- Substrings are runs of letters. The letters of a text, each a byte that starts one and bytes that start none, are the
text without what stands before the first; `length` counts them, `substring` looks no index up that is out of range and
gives letters `first` to `last`, `letterAt` one of them, and a text cut behind any letter is whole again when joined. -/
theorem substrings_are_letters (s : Bytes) :
    (letters s).flatten = s.dropWhile (fun b => !startsLetter b) ∧
    (∀ l ∈ letters s, ∃ b tail, l = b :: tail ∧ startsLetter b = true ∧ ∀ c ∈ tail, startsLetter c = false) ∧
    length s = Int64.ofNat (letters s).length ∧ ((s.length : Int) ≤ Int64.maxValue.toInt → (length s).toInt = (letters s).length) ∧
    (∀ first last : Int64, substring? s first last = some (substring s first last) ∧ substring s first last =
      (((letters s).take (min last.toInt (letters s).length).toNat).drop (max first.toInt 1 - 1).toNat).flatten) ∧
    (∀ i : Int64, letterAt s i = if 1 ≤ i.toInt then (letters s).getD (i.toInt.toNat - 1) [] else []) ∧
    ∀ k next n : Int64, 0 ≤ k.toInt → k.toInt ≤ n.toInt → next.toInt = k.toInt + 1 → n.toInt = (letters s).length →
      substring s 1 k ++ substring s next n = substring s 1 n := by
  have hlength : length s = Int64.ofNat (letters s).length := by rw [length, length_letters]
  refine ⟨flatten_letters s, fun l hl => letter_shape hl, hlength, fun hs => ?_, fun first last => ⟨?_, ?_⟩, letterAt_eq s,
    fun k next n hk hkn hnext _ => ?_⟩
  · have hmax : Int64.maxValue.toInt = 9223372036854775807 := rfl
    have hcount : (letters s).length ≤ s.length := by
      rw [length_letters]
      exact List.countP_le_length
    rw [hlength]
    exact Int64.toInt_ofNat_of_lt (by omega)
  · rw [substring?_eq, substring_eq_cut]
  · have htake : (letters s).take (min last.toInt (letters s).length).toNat = (letters s).take last.toInt.toNat := by
      have hmin : (min last.toInt (letters s).length).toNat = min last.toInt.toNat (letters s).length := by omega
      rw [hmin, ← List.take_eq_take_min]
    rw [substring_eq_cut, cut, htake]
  · rw [substring_eq_cut, substring_eq_cut, substring_eq_cut]
    exact cut_append s hk hkn hnext

end Blockwork.Text
