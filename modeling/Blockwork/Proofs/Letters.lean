import Blockwork.Compile.Operation
import Blockwork.Terminal.Input
import Mathlib.Algebra.GroupWithZero.Nat

/-! # Letters of well-formed text
Encoded characters decode to themselves, whatever follows them, and each of them is one letter. -/

namespace Blockwork.Text

/-! ### Bytes of a character -/

theorem toNat_byte (h : k < 256) : (UInt8.ofNat k).toNat = k := by
  simp [Nat.mod_eq_of_lt h]

theorem Lead.ofByte_eq (h : k < 256) : Lead.ofByte (UInt8.ofNat k) =
    if k < 0x80 then .single (Char.ofNat k) else if k < 0xC2 then .invalid
    else if k < 0xE0 then .opens ⟨k % 32, 1, 0x80, 0xBF⟩ else if k = 0xE0 then .opens ⟨0, 2, 0xA0, 0xBF⟩
    else if k = 0xED then .opens ⟨13, 2, 0x80, 0x9F⟩ else if k < 0xF0 then .opens ⟨k % 16, 2, 0x80, 0xBF⟩
    else if k = 0xF0 then .opens ⟨0, 3, 0x90, 0xBF⟩ else if k < 0xF4 then .opens ⟨k % 8, 3, 0x80, 0xBF⟩
    else if k = 0xF4 then .opens ⟨4, 3, 0x80, 0x8F⟩ else .invalid := by
  simp only [Lead.ofByte, UInt8.lt_iff_toNat_lt, ← UInt8.toNat_inj, toNat_byte h]
  rfl

/-- A lead byte promises a number of further bytes and admits the next six bits. -/
def Lead.Admits (l : Lead) (bits owed x : Nat) : Prop :=
  ∃ p : Pending, l = .opens p ∧ p.bits = bits ∧ p.owed = owed ∧ p.least.toNat ≤ x % 64 + 128 ∧
    x % 64 + 128 ≤ p.greatest.toNat

theorem admits_two (h : 0x80 ≤ v) (h' : v ≤ 0x7FF) :
    (Lead.ofByte (UInt8.ofNat (v / 64 % 32 + 192))).Admits (v / 64) 1 v := by
  rw [Lead.ofByte_eq (by omega), if_neg (by omega), if_neg (by omega), if_pos (by omega)]
  exact ⟨_, rfl, by dsimp only; omega, rfl, Nat.le_add_left _ _, by dsimp; omega⟩

theorem admits_three (h : 0x800 ≤ v) (h' : v ≤ 0xFFFF) (hvalid : v < 0xD800 ∨ 0xDFFF < v) :
    (Lead.ofByte (UInt8.ofNat (v / 4096 % 16 + 224))).Admits (v / 4096) 2 (v / 64) := by
  rw [Lead.ofByte_eq (by omega), if_neg (by omega), if_neg (by omega), if_neg (by omega)]
  split
  · exact ⟨_, rfl, by dsimp only; omega, rfl, by dsimp; omega, by dsimp; omega⟩
  · split
    · exact ⟨_, rfl, by dsimp only; omega, rfl, Nat.le_add_left _ _, by dsimp; omega⟩
    · rw [if_pos (by omega)]
      exact ⟨_, rfl, by dsimp only; omega, rfl, Nat.le_add_left _ _, by dsimp; omega⟩

theorem admits_four (h : 0x10000 ≤ v) (h' : v < 0x110000) :
    (Lead.ofByte (UInt8.ofNat (v / 262144 % 8 + 240))).Admits (v / 262144) 3 (v / 4096) := by
  rw [Lead.ofByte_eq (by omega), if_neg (by omega), if_neg (by omega), if_neg (by omega), if_neg (by omega),
    if_neg (by omega), if_neg (by omega)]
  split
  · exact ⟨_, rfl, by dsimp only; omega, rfl, by dsimp; omega, by dsimp; omega⟩
  · split
    · exact ⟨_, rfl, by dsimp only; omega, rfl, Nat.le_add_left _ _, by dsimp; omega⟩
    · rw [if_pos (by omega)]
      exact ⟨_, rfl, by dsimp only; omega, rfl, Nat.le_add_left _ _, by dsimp; omega⟩

theorem decodeFrom_more {p : Pending} (hlow : p.least.toNat ≤ x % 64 + 128) (hhigh : x % 64 + 128 ≤ p.greatest.toNat)
    (rest : Bytes) : decodeFrom (some p) (UInt8.ofNat (x % 64 + 128) :: rest) =
      if p.owed = 1 then some (Char.ofNat (p.bits * 64 + x % 64)) :: decodeFrom none rest
      else decodeFrom (some ⟨p.bits * 64 + x % 64, p.owed - 1, 0x80, 0xBF⟩) rest := by
  have hbyte : (UInt8.ofNat (x % 64 + 128)).toNat = x % 64 + 128 := toNat_byte (by omega)
  rw [decodeFrom, if_pos (by simpa only [UInt8.le_iff_toNat_le, hbyte] using ⟨hlow, hhigh⟩)]
  simp only [hbyte, show (x % 64 + 128) % 64 = x % 64 by omega]

theorem decodeFrom_next (bits owed x : Nat) (rest : Bytes) :
    decodeFrom (some ⟨bits, owed, 0x80, 0xBF⟩) (UInt8.ofNat (x % 64 + 128) :: rest) =
      if owed = 1 then some (Char.ofNat (bits * 64 + x % 64)) :: decodeFrom none rest
      else decodeFrom (some ⟨bits * 64 + x % 64, owed - 1, 0x80, 0xBF⟩) rest :=
  decodeFrom_more (Nat.le_add_left _ _) (by dsimp; omega) rest

theorem decodeFrom_lead (h : (Lead.ofByte b).Admits bits owed x) (rest : Bytes) :
    decodeFrom none (b :: UInt8.ofNat (x % 64 + 128) :: rest) =
      if owed = 1 then some (Char.ofNat (bits * 64 + x % 64)) :: decodeFrom none rest
      else decodeFrom (some ⟨bits * 64 + x % 64, owed - 1, 0x80, 0xBF⟩) rest := by
  obtain ⟨p, hlead, rfl, rfl, hlow, hhigh⟩ := h
  rw [decodeFrom, hlead]
  exact decodeFrom_more hlow hhigh rest

theorem decodeFrom_utf8EncodeChar (c : Char) (rest : Bytes) :
    decodeFrom none (String.utf8EncodeChar c ++ rest) = some c :: decodeFrom none rest := by
  have hvalid : c.val.toNat < 0xD800 ∨ 0xDFFF < c.val.toNat ∧ c.val.toNat < 0x110000 := c.valid
  have hc : Char.ofNat c.val.toNat = c := c.ofNat_toNat
  simp only [String.utf8EncodeChar]
  generalize c.val.toNat = v at hvalid hc
  split
  · rw [List.singleton_append, decodeFrom, Lead.ofByte_eq (by omega), if_pos (by omega), hc]
  · split
    · have hlead := admits_two (v := v) (by omega) ‹_›
      have hbits : v / 64 * 64 + v % 64 = v := by omega
      simp only [List.cons_append, List.nil_append, decodeFrom_lead hlead, hbits, hc, if_true]
    · split
      · have hlead := admits_three (v := v) (by omega) ‹_› (by omega)
        have hbits : (v / 4096 * 64 + v / 64 % 64) * 64 + v % 64 = v := by omega
        simp only [List.cons_append, List.nil_append, decodeFrom_lead hlead, decodeFrom_next, hbits, hc]
        rfl
      · have hlead := admits_four (v := v) (by omega) (by omega)
        have hbits : ((v / 262144 * 64 + v / 4096 % 64) * 64 + v / 64 % 64) * 64 + v % 64 = v := by omega
        simp only [List.cons_append, List.nil_append, decodeFrom_lead hlead, decodeFrom_next, hbits, hc]
        rfl

/-! ### Texts -/

theorem decode_encode (cs : List Char) : decode (encode cs) = cs.map some := by
  unfold decode
  induction cs with
  | nil => rfl
  | cons c cs ih => rw [encode_cons, decodeFrom_utf8EncodeChar, ih, List.map_cons]

theorem chars?_encode (cs : List Char) : chars? (encode cs) = some cs := by
  rw [chars?, decode_encode]
  induction cs with
  | nil => rfl
  | cons c cs ih => simp [ih]

theorem lossy_encode (cs : List Char) : lossy (encode cs) = cs := by
  simp [lossy, decode_encode, Function.comp_def]

theorem startsLetter_byte (h : k < 256) : startsLetter (UInt8.ofNat k) = decide (k / 64 ≠ 2) := by
  have hall : ∀ k < 256, startsLetter (UInt8.ofNat k) = decide (k / 64 ≠ 2) := by decide +kernel
  exact hall k h

theorem letterWidth_byte (h : k < 256) : Input.letterWidth (UInt8.ofNat k) =
    if k < 0xC0 then 1 else if k < 0xE0 then 2 else if k < 0xF0 then 3 else 4 := by
  have hall : ∀ k < 256, Input.letterWidth (UInt8.ofNat k) =
      if k < 0xC0 then 1 else if k < 0xE0 then 2 else if k < 0xF0 then 3 else 4 := by decide +kernel
  exact hall k h

theorem utf8EncodeChar_bytes (c : Char) : ∃ b tail, String.utf8EncodeChar c = b :: tail ∧ startsLetter b = true ∧
    (∀ x ∈ tail, startsLetter x = false) ∧ Input.letterWidth b = tail.length + 1 ∧
      (b.toNat < 0x80 → c = Char.ofNat b.toNat) := by
  have hvalid : c.val.toNat < 0x110000 := by
    rcases c.valid with h | h
    · exact Nat.lt_trans h (by decide)
    · exact h.2
  have hself : Char.ofNat c.val.toNat = c := Char.ofNat_toNat c
  have hnext : ∀ l : List Nat, ∀ x ∈ l.map fun k => UInt8.ofNat (k % 64 + 128), startsLetter x = false := by
    intro l x hx
    obtain ⟨k, -, rfl⟩ := List.mem_map.mp hx
    rw [startsLetter_byte (by omega)]
    simp; omega
  have hlead : ∀ k < 256, 0xC0 ≤ k → startsLetter (UInt8.ofNat k) = true ∧
      ((UInt8.ofNat k).toNat < 0x80 → c = Char.ofNat (UInt8.ofNat k).toNat) := by
    intro k hk hle
    rw [startsLetter_byte hk, toNat_byte hk]
    exact ⟨decide_eq_true (by omega), fun hlt => by omega⟩
  simp only [String.utf8EncodeChar]
  generalize c.val.toNat = v at hvalid hself
  split
  · refine ⟨_, _, rfl, by rw [startsLetter_byte (by omega)]; simp; omega, nofun, ?_, fun _ => ?_⟩
    · rw [letterWidth_byte (by omega), if_pos (by omega)]
      rfl
    · rw [toNat_byte (by omega), hself]
  · split
    · obtain ⟨hstarts, hchar⟩ := hlead (v / 64 % 32 + 192) (by omega) (by omega)
      refine ⟨_, _, rfl, hstarts, hnext [v], ?_, hchar⟩
      rw [letterWidth_byte (by omega), if_neg (by omega), if_pos (by omega)]
      rfl
    · split
      · obtain ⟨hstarts, hchar⟩ := hlead (v / 4096 % 16 + 224) (by omega) (by omega)
        refine ⟨_, _, rfl, hstarts, hnext [v / 64, v], ?_, hchar⟩
        rw [letterWidth_byte (by omega), if_neg (by omega), if_neg (by omega), if_pos (by omega)]
        rfl
      · obtain ⟨hstarts, hchar⟩ := hlead (v / 262144 % 8 + 240) (by omega) (by omega)
        refine ⟨_, _, rfl, hstarts, hnext [v / 4096, v / 64, v], ?_, hchar⟩
        rw [letterWidth_byte (by omega), if_neg (by omega), if_neg (by omega), if_neg (by omega)]
        rfl

theorem utf8EncodeChar_letter (c : Char) : ∃ b tail, String.utf8EncodeChar c = b :: tail ∧ startsLetter b = true ∧
    ∀ x ∈ tail, startsLetter x = false := by
  obtain ⟨b, tail, hbytes, hb, htail, -⟩ := utf8EncodeChar_bytes c
  exact ⟨b, tail, hbytes, hb, htail⟩

theorem mem_encode (h : x ∈ encode cs) (hx : x.toNat < 0x80) : Char.ofNat x.toNat ∈ cs := by
  obtain ⟨c, hc, hbyte⟩ := List.mem_flatMap.mp h
  obtain ⟨b, tail, hbytes, -, htail, -, hself⟩ := utf8EncodeChar_bytes c
  rw [hbytes] at hbyte
  rcases List.mem_cons.mp hbyte with rfl | hx'
  · rw [← hself hx]
    exact hc
  · have hstarts := startsLetter_byte x.toNat_lt
    rw [UInt8.ofNat_toNat, htail x hx', eq_comm, decide_eq_false_iff_not] at hstarts
    omega

theorem length_encode (cs : List Char) : length (encode cs) = Int64.ofNat cs.length := by
  unfold length
  congr 1
  induction cs with
  | nil => rfl
  | cons c cs ih =>
    obtain ⟨b, tail, hc, hb, htail⟩ := utf8EncodeChar_letter c
    have hnone : tail.countP startsLetter = 0 := List.countP_eq_zero.mpr fun x hx => by simp [htail x hx]
    rw [encode_cons, List.countP_append, ih, hc, List.countP_cons, hnone, hb, List.length_cons]
    simp
    omega

theorem encode_letter (c : Char) (cs : List Char) : ∃ b tail, String.utf8EncodeChar c = b :: tail ∧
    startsLetter b = true ∧ (tail ++ encode cs).takeWhile (fun x => !startsLetter x) = tail := by
  obtain ⟨b, tail, hc, hb, htail⟩ := utf8EncodeChar_letter c
  refine ⟨b, tail, hc, hb, ?_⟩
  rw [List.takeWhile_append_of_pos fun x hx => by simp [htail x hx]]
  cases cs with
  | nil => simp
  | cons c' =>
    obtain ⟨b', tail', hc', hb', -⟩ := utf8EncodeChar_letter c'
    simp [hc', hb']

theorem ord_encode (c : Char) (cs : List Char) : ord (encode (c :: cs)) = Int64.ofNat c.toNat := by
  obtain ⟨b, tail, hc, -, htake⟩ := encode_letter c cs
  have hone : chars? (b :: tail) = some [c] := by
    rw [← hc, ← chars?_encode [c], encode_cons, encode_nil, List.append_nil]
  rw [encode_cons, hc, List.cons_append, ord, htake, hone]

theorem ord_ofString (t : String) : ord (ofString t) = Lower.literalOrd t := by
  unfold Lower.literalOrd ofString
  cases t.toList with
  | nil => rfl
  | cons c cs => exact ord_encode c cs

theorem ofString_append (t u : String) : ofString (t ++ u) = ofString t ++ ofString u := by
  rw [ofString, String.toList_append, encode_append]
  rfl

theorem isEmpty_ofString (t : String) : (ofString t).isEmpty = (t == "") := by
  cases ht : t.toList with
  | nil =>
    obtain rfl := String.toList_eq_nil_iff.mp ht
    rfl
  | cons c =>
    obtain ⟨b, tail, hc, -⟩ := utf8EncodeChar_letter c
    have hne : t ≠ "" := by
      rintro rfl
      cases ht
    rw [ofString, ht, encode_cons, hc, beq_false_of_ne hne]
    rfl

theorem ofNat_eq_zero_iff (h : k < 2 ^ 64) : Int64.ofNat k = 0 ↔ k = 0 := by
  constructor
  · intro hk
    have hword : (Int64.ofNat k).toUInt64.toNat = 0 := by
      rw [hk]
      rfl
    have hmod : k % 2 ^ 64 = 0 := by simpa using hword
    omega
  · rintro rfl
    rfl

theorem isNonzero_length (h : t.length < 2 ^ 64) : (length (ofString t) != 0) = !(ofString t).isEmpty := by
  rw [isEmpty_ofString, ofString, length_encode, String.length_toList, bne]
  congr 1
  rw [Bool.eq_iff_iff, beq_iff_eq, beq_iff_eq, ofNat_eq_zero_iff h]
  exact String.length_eq_zero_iff
end Blockwork.Text
