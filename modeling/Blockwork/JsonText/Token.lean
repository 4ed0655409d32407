import Blockwork.Text.Binary64
import Blockwork.Text.Color

/-! # Reading JSON text
Text is read from left to right and the first problem decides: a text that is not JSON, a text that
ends too early, or JSON of another shape than expected. -/

namespace Blockwork.JsonText

inductive Fault where
  | malformed
  | incomplete
  | wrongShape
  deriving DecidableEq, Repr

abbrev Reader := StateT (List Char) (Except Fault)

def refuse {α : Type} (f : Fault) : Reader α := fun _ => .error f

def isBlank (c : Char) : Bool :=
  c == ' ' || c == '\n' || c == '\t' || c == '\r'

def peek : Reader (Option Char) := fun s =>
  let s := s.dropWhile isBlank
  .ok (s.head?, s)

def advance : Reader Unit := fun s => .ok ((), s.drop 1)

/-! ### Strings -/

/-- Value of four hexadecimal digits. A text with fewer than four bytes left is too short, whatever it
holds. -/
def hexEscape (s : List Char) : Except Fault (Nat × List Char) :=
  if (Text.encode (s.take 4)).length < 4 then .error .incomplete
  else
    match Text.hexValue? (s.take 4) with
    | some v => .ok (v, s.drop 4)
    | none => .error .malformed

def isHigh (n : Nat) : Bool := 0xD800 ≤ n && n ≤ 0xDBFF

def isLow (n : Nat) : Bool := 0xDC00 ≤ n && n ≤ 0xDFFF

def pairChar (high low : Nat) : Char :=
  Char.ofNat ((high - 0xD800) * 1024 + (low - 0xDC00) + 0x10000)

def lowEscape (high : Nat) : List Char → Except Fault (Char × List Char)
  | [] => .error .incomplete
  | ['\\'] => .error .incomplete
  | '\\' :: 'u' :: s =>
    match hexEscape s with
    | .error f => .error f
    | .ok (low, s) => if isLow low then .ok (pairChar high low, s) else .error .malformed
  | _ => .error .malformed

def unicodeEscape (s : List Char) : Except Fault (Char × List Char) :=
  match hexEscape s with
  | .error f => .error f
  | .ok (n, s) =>
    if isLow n then .error .malformed
    else if isHigh n then lowEscape n s
    else .ok (Char.ofNat n, s)

def letterEscape? : Char → Option Char
  | '"' => some '"'
  | '\\' => some '\\'
  | '/' => some '/'
  | 'b' => some '\x08'
  | 'f' => some '\x0c'
  | 'n' => some '\n'
  | 'r' => some '\r'
  | 't' => some '\t'
  | _ => none

def escape : List Char → Except Fault (Char × List Char)
  | [] => .error .incomplete
  | 'u' :: s => unicodeEscape s
  | c :: s =>
    match letterEscape? c with
    | some d => .ok (d, s)
    | none => .error .malformed

theorem hexEscape_length {s rest : List Char} {n : Nat} (h : hexEscape s = .ok (n, rest)) :
    rest.length ≤ s.length := by
  unfold hexEscape at h
  split at h
  · simp at h
  · split at h
    · simp only [Except.ok.injEq, Prod.mk.injEq] at h
      simp [← h.2]
    · simp at h

theorem lowEscape_length {high : Nat} {s rest : List Char} {c : Char}
    (h : lowEscape high s = .ok (c, rest)) : rest.length ≤ s.length := by
  unfold lowEscape at h
  split at h
  · simp at h
  · simp at h
  · split at h
    · simp at h
    · next heq =>
      have := hexEscape_length heq
      split at h
      · simp only [Except.ok.injEq, Prod.mk.injEq] at h
        simp only [← h.2, List.length_cons]
        omega
      · simp at h
  · simp at h

theorem escape_length {s rest : List Char} {c : Char} (h : escape s = .ok (c, rest)) :
    rest.length < s.length := by
  unfold escape at h
  split at h
  · simp at h
  · unfold unicodeEscape at h
    split at h
    · simp at h
    · next heq =>
      have := hexEscape_length heq
      split at h
      · simp at h
      · split at h
        · have := lowEscape_length h
          simp only [List.length_cons]
          omega
        · simp only [Except.ok.injEq, Prod.mk.injEq] at h
          simp only [← h.2, List.length_cons]
          omega
  · split at h
    · simp only [Except.ok.injEq, Prod.mk.injEq] at h
      simp [← h.2]
    · simp at h

def stringBody (s : List Char) : Except Fault (List Char × List Char) :=
  match s with
  | [] => .error .incomplete
  | '"' :: rest => .ok ([], rest)
  | '\\' :: rest =>
    match _h : escape rest with
    | .error f => .error f
    | .ok (c, rest) => (stringBody rest).map fun (cs, rest) => (c :: cs, rest)
  | c :: rest =>
    if c.toNat < 0x20 then .error .malformed
    else (stringBody rest).map fun (cs, rest) => (c :: cs, rest)
termination_by s.length
decreasing_by
  · have := escape_length _h
    simp only [List.length_cons]
    omega
  · simp

def stringRest : Reader String := fun s =>
  (stringBody s).map fun (cs, rest) => (String.ofList cs, rest)

/-! ### Values of the wrong shape

A value that cannot be used is only looked at closely enough to see whether it is JSON. -/

def wordFault : List Char → List Char → Fault
  | [], _ => .wrongShape
  | _ :: _, [] => .incomplete
  | w :: word, c :: s => if w = c then wordFault word s else .malformed

def absorb (significand : Nat) : List Char → Nat × List Char
  | [] => (significand, [])
  | d :: ds =>
    let next := significand * 10 + (d.toNat - '0'.toNat)
    if next < UInt64.size then absorb next ds else (significand, d :: ds)

/-- Whether `significand · 10 ^ exponent` is too large for a double. -/
def isHuge (significand : Nat) (exponent : Int) : Bool :=
  if significand = 0 || exponent < 0 then false
  else if exponent > 308 then true
  else (Binary64.ofDecimal false significand 0 * Binary64.ofDecimal false 1 exponent).isInf

def magnitudeFault (significand : Nat) (exponent : Int) : Fault :=
  if isHuge significand exponent then .malformed else .wrongShape

def exponentFault (significand : Nat) (exponent : Int) (s : List Char) : Fault :=
  let (neg, digits) :=
    match s with
    | '+' :: s => (false, s)
    | '-' :: s => (true, s)
    | s => (false, s)
  match digits with
  | [] => .incomplete
  | d :: _ =>
    if !d.isDigit then .malformed
    else
      let value := (digits.takeWhile Char.isDigit).foldl (fun v d => v * 10 + (d.toNat - '0'.toNat)) 0
      if value ≥ 0x80000000 then
        if significand ≠ 0 && !neg then .malformed else .wrongShape
      else magnitudeFault significand (exponent + (if neg then -Int.ofNat value else Int.ofNat value))

def exponentOrEnd (significand : Nat) (exponent : Int) : List Char → Fault
  | 'e' :: s => exponentFault significand exponent s
  | 'E' :: s => exponentFault significand exponent s
  | _ => magnitudeFault significand exponent

def fractionFault (significand : Nat) (exponent : Int) : List Char → Fault
  | '.' :: s =>
    let digits := s.takeWhile Char.isDigit
    let rest := s.dropWhile Char.isDigit
    if digits.isEmpty then (if rest.isEmpty then .incomplete else .malformed)
    else
      let (significand, left) := absorb significand digits
      exponentOrEnd significand (exponent - Int.ofNat (digits.length - left.length)) rest
  | s => exponentOrEnd significand exponent s

def numberFault : List Char → Fault
  | [] => .incomplete
  | '0' :: s =>
    match s with
    | d :: _ => if d.isDigit then .malformed else fractionFault 0 0 s
    | [] => fractionFault 0 0 s
  | c :: s =>
    if !c.isDigit then .malformed
    else
      let (significand, left) := absorb 0 (c :: s.takeWhile Char.isDigit)
      fractionFault significand (Int.ofNat left.length) (s.dropWhile Char.isDigit)

def unexpected (s : List Char) : Fault :=
  match s with
  | [] => .incomplete
  | 'n' :: s => wordFault "ull".toList s
  | 't' :: s => wordFault "rue".toList s
  | 'f' :: s => wordFault "alse".toList s
  | '-' :: s => numberFault s
  | '"' :: s =>
    match stringBody s with
    | .ok _ => .wrongShape
    | .error f => f
  | '[' :: _ => .wrongShape
  | '\x7b' :: _ => .wrongShape
  | c :: s => if c.isDigit then numberFault (c :: s) else .malformed

def refuseValue {α : Type} : Reader α := fun s => .error (unexpected s)

/-! ### Skipping a value

Fields that are not known are skipped. A skipped value has to be JSON, but its numbers may be of any
size, its strings may hold lone halves of pairs, and it may be nested to any depth. -/

def skipWord : List Char → List Char → Except Fault (List Char)
  | [], s => .ok s
  | _ :: _, [] => .error .incomplete
  | w :: word, c :: s => if w = c then skipWord word s else .error .malformed

def skipExponent (s : List Char) : Except Fault (List Char) :=
  let digits :=
    match s with
    | '+' :: s => s
    | '-' :: s => s
    | s => s
  match digits with
  | d :: _ => if d.isDigit then .ok (digits.dropWhile Char.isDigit) else .error .malformed
  | [] => .error .malformed

def skipExponent? : List Char → Except Fault (List Char)
  | 'e' :: s => skipExponent s
  | 'E' :: s => skipExponent s
  | s => .ok s

def skipFraction : List Char → Except Fault (List Char)
  | '.' :: s =>
    match s with
    | d :: _ => if d.isDigit then skipExponent? (s.dropWhile Char.isDigit) else .error .malformed
    | [] => .error .malformed
  | s => skipExponent? s

def skipNumber : List Char → Except Fault (List Char)
  | [] => .error .malformed
  | '0' :: s =>
    match s with
    | d :: _ => if d.isDigit then .error .malformed else skipFraction s
    | [] => skipFraction s
  | c :: s => if c.isDigit then skipFraction (s.dropWhile Char.isDigit) else .error .malformed

def skipEscape : List Char → Except Fault (List Char)
  | [] => .error .incomplete
  | 'u' :: s => (hexEscape s).map Prod.snd
  | c :: s => if (letterEscape? c).isSome then .ok s else .error .malformed

theorem skipEscape_length {s rest : List Char} (h : skipEscape s = .ok rest) :
    rest.length < s.length := by
  unfold skipEscape at h
  split at h
  · simp at h
  · next s' =>
    cases he : hexEscape s' with
    | error f => simp [he, Except.map] at h
    | ok p =>
      obtain ⟨n, tail⟩ := p
      have := hexEscape_length he
      simp only [he, Except.map, Except.ok.injEq] at h
      simp only [← h, List.length_cons]
      omega
  · split at h
    · simp only [Except.ok.injEq] at h
      simp [← h]
    · simp at h

def skipString (s : List Char) : Except Fault (List Char) :=
  match s with
  | [] => .error .incomplete
  | '"' :: rest => .ok rest
  | '\\' :: rest =>
    match _h : skipEscape rest with
    | .error f => .error f
    | .ok rest => skipString rest
  | c :: rest => if c.toNat < 0x20 then .error .malformed else skipString rest
termination_by s.length
decreasing_by
  · have := skipEscape_length _h
    simp only [List.length_cons]
    omega
  · simp

inductive Bracket where
  | list
  | record
  deriving DecidableEq, Repr

def Bracket.closer : Bracket → Char
  | list => ']'
  | record => '\x7d'

inductive SkipAt where
  | value
  | ended
  deriving DecidableEq, Repr

def skipKey (s : List Char) : Except Fault (List Char) :=
  match s.dropWhile isBlank with
  | [] => .error .incomplete
  | '"' :: s =>
    match skipString s with
    | .error f => .error f
    | .ok s =>
      match s.dropWhile isBlank with
      | [] => .error .incomplete
      | ':' :: s => .ok s
      | _ => .error .malformed
  | _ => .error .malformed

def skipToItem (b : Bracket) (s : List Char) : Except Fault (List Char) :=
  match b with
  | .list => .ok s
  | .record => skipKey s

def skipScalar : List Char → Except Fault (List Char)
  | [] => .error .incomplete
  | 'n' :: s => skipWord "ull".toList s
  | 't' :: s => skipWord "rue".toList s
  | 'f' :: s => skipWord "alse".toList s
  | '-' :: s => skipNumber s
  | '"' :: s => skipString s
  | c :: s => if c.isDigit then skipNumber (c :: s) else .error .malformed

/-- Skip the rest of a value inside the brackets that are open, in at most as many rounds as `bound` is
long. Every round takes at least one character. -/
def skipFrom : List Char → SkipAt → List Bracket → List Char → Except Fault (List Char)
  | _, .ended, [], s => .ok s
  | [], _, _, _ => .error .incomplete
  | _ :: bound, .value, opened, s =>
    match s.dropWhile isBlank with
    | '[' :: s =>
      match s.dropWhile isBlank with
      | ']' :: s => skipFrom bound .ended opened s
      | s => skipFrom bound .value (.list :: opened) s
    | '\x7b' :: s =>
      match s.dropWhile isBlank with
      | '\x7d' :: s => skipFrom bound .ended opened s
      | s =>
        match skipKey s with
        | .error f => .error f
        | .ok s => skipFrom bound .value (.record :: opened) s
    | s =>
      match skipScalar s with
      | .error f => .error f
      | .ok s => skipFrom bound .ended opened s
  | _ :: bound, .ended, b :: opened, s =>
    match s.dropWhile isBlank with
    | [] => .error .incomplete
    | c :: rest =>
      if c = b.closer then skipFrom bound .ended opened rest
      else if c = ',' then
        match skipToItem b rest with
        | .error f => .error f
        | .ok s => skipFrom bound .value (b :: opened) s
      else .error .malformed

def skipValue : Reader Unit := fun s =>
  (skipFrom s .value [] s).map fun rest => ((), rest)

end Blockwork.JsonText
