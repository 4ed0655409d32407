/-! # Byte text
Text inside a running program is a list of bytes. It is expected, but not required, to be UTF-8:
program input and cut letters may hold any bytes. The decoder never fails: it yields one entry per
character and one `none` per maximal ill-formed part. -/

namespace Blockwork

abbrev Bytes := List UInt8

namespace Text

/-! ### Encoding -/

def encode (cs : List Char) : Bytes :=
  cs.flatMap String.utf8EncodeChar

def ofString (s : String) : Bytes :=
  encode s.toList

@[simp] theorem encode_nil : encode [] = [] := rfl

@[simp] theorem encode_cons (c : Char) (cs : List Char) :
    encode (c :: cs) = String.utf8EncodeChar c ++ encode cs := by
  simp [encode]

theorem encode_append (cs ds : List Char) : encode (cs ++ ds) = encode cs ++ encode ds := by
  simp [encode]

/-! ### Decoding -/

/-- A character whose leading bytes have been read: the bits gathered so far, how many further
bytes are owed, and the least and greatest byte that may come next. -/
structure Pending where
  bits : Nat
  owed : Nat
  least : UInt8
  greatest : UInt8
  deriving DecidableEq, Repr

inductive Lead where
  | single (c : Char)
  | opens (p : Pending)
  | invalid
  deriving DecidableEq, Repr

/-- Classify a byte at the start of a character. The ranges for the second byte keep out overlong
forms, surrogates and code points above `U+10FFFF`. -/
def Lead.ofByte (b : UInt8) : Lead :=
  if b < 0x80 then .single (Char.ofNat b.toNat)
  else if b < 0xC2 then .invalid
  else if b < 0xE0 then .opens ⟨b.toNat % 32, 1, 0x80, 0xBF⟩
  else if b = 0xE0 then .opens ⟨0, 2, 0xA0, 0xBF⟩
  else if b = 0xED then .opens ⟨13, 2, 0x80, 0x9F⟩
  else if b < 0xF0 then .opens ⟨b.toNat % 16, 2, 0x80, 0xBF⟩
  else if b = 0xF0 then .opens ⟨0, 3, 0x90, 0xBF⟩
  else if b < 0xF4 then .opens ⟨b.toNat % 8, 3, 0x80, 0xBF⟩
  else if b = 0xF4 then .opens ⟨4, 3, 0x80, 0x8F⟩
  else .invalid

/-- Decode bytes. Each character gives `some`; each maximal ill-formed part gives one `none`. -/
def decodeFrom : Option Pending → Bytes → List (Option Char)
  | none, [] => []
  | some _, [] => [none]
  | none, b :: rest =>
    match Lead.ofByte b with
    | .single c => some c :: decodeFrom none rest
    | .opens p => decodeFrom (some p) rest
    | .invalid => none :: decodeFrom none rest
  | some p, b :: rest =>
    if p.least ≤ b ∧ b ≤ p.greatest then
      let bits := p.bits * 64 + b.toNat % 64
      if p.owed = 1 then some (Char.ofNat bits) :: decodeFrom none rest
      else decodeFrom (some ⟨bits, p.owed - 1, 0x80, 0xBF⟩) rest
    else
      match Lead.ofByte b with
      | .single c => none :: some c :: decodeFrom none rest
      | .opens q => none :: decodeFrom (some q) rest
      | .invalid => none :: none :: decodeFrom none rest

def decode (s : Bytes) : List (Option Char) :=
  decodeFrom none s

def chars? (s : Bytes) : Option (List Char) :=
  (decode s).mapM id

def toString? (s : Bytes) : Option String :=
  (chars? s).map String.ofList

def lossy (s : Bytes) : List Char :=
  (decode s).map (·.getD '\uFFFD')

/-! ### Blanks -/

/-- Code points with the `White_Space` property, as inclusive ranges in ascending order. -/
def blankRanges : List (Nat × Nat) :=
  [(0x09, 0x0D), (0x20, 0x20), (0x85, 0x85), (0xA0, 0xA0), (0x1680, 0x1680), (0x2000, 0x200A),
   (0x2028, 0x2029), (0x202F, 0x202F), (0x205F, 0x205F), (0x3000, 0x3000)]

def isBlank (c : Char) : Bool :=
  blankRanges.any fun (lo, hi) => lo ≤ c.toNat && c.toNat ≤ hi

def trimStart (cs : List Char) : List Char :=
  cs.dropWhile isBlank

def trim (cs : List Char) : List Char :=
  (trimStart (trimStart cs).reverse).reverse

end Text

end Blockwork
