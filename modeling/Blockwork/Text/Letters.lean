import Blockwork.Text.Utf8

/-! # Letters
Positions in text count letters from one. A letter starts at every byte that is not a UTF-8
continuation byte and runs up to the next such byte; bytes before the first start belong to no
letter. -/

namespace Blockwork.Text

def startsLetter (b : UInt8) : Bool :=
  b &&& 0xC0 != 0x80

def startsFrom (i : Nat) : Bytes → List Nat
  | [] => []
  | b :: rest => if startsLetter b then i :: startsFrom (i + 1) rest else startsFrom (i + 1) rest

def bounds (s : Bytes) : List Nat :=
  startsFrom 0 s ++ [s.length]

def length (s : Bytes) : Int64 :=
  Int64.ofNat (s.countP startsLetter)

/-- Letters `first` to `last`, counted from one. A `first` below one means one; the result is empty
when the range is, or when it starts past the end. -/
def substring (s : Bytes) (first last : Int64) : Bytes :=
  let first := max first.toInt 1
  let last := last.toInt
  if last ≤ 0 ∨ first > last then []
  else
    let bs := bounds s
    let count := bs.length - 1
    if first > count then []
    else
      let start := bs.getD (first.toNat - 1) 0
      let stop := bs.getD (min last.toNat count) 0
      (s.drop start).take (stop - start)

def letterAt (s : Bytes) (index : Int64) : Bytes :=
  substring s index index

/-- Code point of the first letter, zero for empty text. A first letter that is not well formed
counts as its first byte. -/
def ord : Bytes → Int64
  | [] => 0
  | b :: rest =>
    match chars? (b :: rest.takeWhile fun c => !startsLetter c) with
    | some (c :: _) => Int64.ofNat c.toNat
    | _ => Int64.ofNat b.toNat

def chr (code : Int64) : Bytes :=
  let n := code.toInt.toNat
  if 0 ≤ code.toInt ∧ n.isValidChar then String.utf8EncodeChar (Char.ofNat n) else []

end Blockwork.Text
