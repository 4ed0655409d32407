import Blockwork.Proofs.Letters
import Blockwork.Proofs.Slices

/-! # Code points and letters

The code point of a text is that of its first letter, and the text of a code point is that letter. -/

namespace Blockwork.Text

theorem toNat_charOfNat {n : Nat} (h : n.isValidChar) : (Char.ofNat n).toNat = n := by
  rw [Char.ofNat, dif_pos h]
  rfl

theorem chr_eq (h : 0 ≤ c.toInt ∧ c.toInt.toNat.isValidChar) : chr c = encode [Char.ofNat c.toInt.toNat] := by
  rw [chr, if_pos h, encode_cons, encode_nil, List.append_nil]

theorem chr_ofNat (c : Char) : chr (Int64.ofNat c.toNat) = String.utf8EncodeChar c := by
  have hlt : c.toNat < 0x110000 := by
    rcases c.valid with h | h
    · exact Nat.lt_trans h (by decide)
    · exact h.2
  have hcode : (Int64.ofNat c.toNat).toInt = c.toNat := Int64.toInt_ofNat_of_lt (by omega)
  rw [chr_eq ⟨by omega, by rw [hcode, Int.toNat_natCast]; exact c.valid⟩, hcode, Int.toNat_natCast, Char.ofNat_toNat,
    encode_cons, encode_nil, List.append_nil]

theorem letterAt_encode (c : Char) (cs : List Char) : letterAt (encode (c :: cs)) 1 = String.utf8EncodeChar c := by
  obtain ⟨b, tail, hc, hb, htake⟩ := encode_letter c cs
  rw [letterAt_eq, if_pos (by decide), encode_cons, hc, List.cons_append, letters_start hb, htake]
  rfl

theorem exists_encode (h : s.toByteArray.IsValidUTF8) : ∃ cs, s = encode cs := by
  obtain ⟨cs, hcs⟩ := h
  have hdata := congrArg (·.data.toList) hcs
  simp only [List.utf8Encode, List.data_toByteArray] at hdata
  exact ⟨cs, hdata⟩

/-- Code points and letters stand for each other. The text of a code point is one letter with that code, and there is
none for other numbers; of well-formed text, the code of the first letter gives the first letter back. -/
theorem codes_denote_letters (c : Int64) (s : Bytes) :
    (0 ≤ c.toInt ∧ c.toInt.toNat.isValidChar → length (chr c) = 1 ∧ ord (chr c) = c) ∧
    (¬(0 ≤ c.toInt ∧ c.toInt.toNat.isValidChar) → chr c = []) ∧
    (s ≠ [] → s.toByteArray.IsValidUTF8 → chr (ord s) = letterAt s 1) := by
  refine ⟨fun hc => ?_, fun hc => if_neg hc, fun hs hvalid => ?_⟩
  · rw [chr_eq hc]
    refine ⟨length_encode _, ?_⟩
    rw [ord_encode, toNat_charOfNat hc.2, ← Int64.toInt_inj, Int64.toInt_ofNat_of_lt (by have := c.toInt_lt; omega)]
    omega
  · obtain ⟨cs, rfl⟩ := exists_encode hvalid
    cases cs with
    | nil => exact absurd rfl hs
    | cons c cs => rw [ord_encode, chr_ofNat, letterAt_encode]

end Blockwork.Text
