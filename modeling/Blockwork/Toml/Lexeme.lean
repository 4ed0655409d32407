import Blockwork.Text.Decimal
import Blockwork.Text.Color

/-! # Lexemes of TOML

Every reader takes a lexeme off the front of a text and gives what follows it; a text without the
lexeme gives `none`. -/

namespace Blockwork.Toml

abbrev Reads (α : Type) := List Char → Option (α × List Char)

/-! ### Blanks -/

def isBlank (c : Char) : Bool := c == ' ' || c == '\t'

def skipBlanks (s : List Char) : List Char := s.dropWhile isBlank

/-- Characters that may stand in a comment or, apart from marks, in a string. -/
def isPrintable (c : Char) : Bool :=
  c == '\t' || (0x20 ≤ c.toNat && c.toNat != 0x7F)

def newline? : List Char → Option (List Char)
  | '\n' :: s => some s
  | '\r' :: '\n' :: s => some s
  | _ => none

def skipComment : List Char → List Char
  | '#' :: s => s.dropWhile isPrintable
  | s => s

def endLine? (s : List Char) : Option (List Char) :=
  match skipComment (skipBlanks s) with
  | [] => some []
  | s => newline? s

def skipLines : List Char → List Char
  | ' ' :: s => skipLines s
  | '\t' :: s => skipLines s
  | '\n' :: s => skipLines s
  | '\r' :: '\n' :: s => skipLines s
  | s => s

/-- Skip blanks, line ends and comments that end with a line, at most as many comments as `bound` is
long. -/
def fillerFrom : List Char → List Char → List Char
  | [], s => s
  | _ :: bound, s =>
    match skipLines s with
    | '#' :: s =>
      match newline? (s.dropWhile isPrintable) with
      | some rest => fillerFrom bound rest
      | none => '#' :: s
    | s => s

def skipFiller (s : List Char) : List Char := fillerFrom s s

/-! ### Strings -/

def scalar (n : Nat) : Reads Char := fun s =>
  if s.length < n then none
  else
    match Text.hexValue? (s.take n) with
    | some v => if v.isValidChar then some (Char.ofNat v, s.drop n) else none
    | none => none

def escape : Reads Char
  | 'b' :: s => some ('\x08', s)
  | 't' :: s => some ('\t', s)
  | 'n' :: s => some ('\n', s)
  | 'f' :: s => some ('\x0c', s)
  | 'r' :: s => some ('\r', s)
  | '"' :: s => some ('"', s)
  | '\\' :: s => some ('\\', s)
  | 'u' :: s => scalar 4 s
  | 'U' :: s => scalar 8 s
  | _ => none

def after (cs : List Char) : Option (List Char × List Char) → Option (List Char × List Char)
  | some (ds, s) => some (cs ++ ds, s)
  | none => none

def lineFrom : List Char → Reads (List Char)
  | [], _ => none
  | _ :: _, '"' :: s => some ([], s)
  | _ :: bound, '\\' :: s =>
    match escape s with
    | some (c, s) => after [c] (lineFrom bound s)
    | none => none
  | _ :: bound, c :: s => if isPrintable c then after [c] (lineFrom bound s) else none
  | _ :: _, [] => none

def lineString (s : List Char) : Option (List Char × List Char) := lineFrom s s

def lineLiteral (s : List Char) : Option (List Char × List Char) :=
  let body := s.takeWhile fun c => c != '\'' && isPrintable c
  match s.drop body.length with
  | '\'' :: s => some (body, s)
  | _ => none

/-- What follows a backslash at the end of a line: the next character that is no blank. -/
def foldedLine? (s : List Char) : Option (List Char) :=
  (newline? (skipBlanks s)).map skipLines

def markRun (mark : Char) (s : List Char) : Nat := (s.takeWhile (· == mark)).length

/-- Rest of a string over several lines, of at most as many pieces as `bound` is long. Three marks close
it, and up to two more right before them belong to it. -/
def blockFrom (mark : Char) : List Char → Reads (List Char)
  | [], _ => none
  | _ :: _, [] => none
  | _ :: bound, c :: s =>
    if c = mark then
      let run := markRun mark s + 1
      let rest := s.drop (run - 1)
      if run < 3 then after (List.replicate run mark) (blockFrom mark bound rest)
      else if run < 6 then some (List.replicate (run - 3) mark, rest)
      else none
    else if c = '\\' && mark = '"' then
      match foldedLine? s with
      | some s => blockFrom mark bound s
      | none =>
        match escape s with
        | some (c, s) => after [c] (blockFrom mark bound s)
        | none => none
    else
      match newline? (c :: s) with
      | some s => after ['\n'] (blockFrom mark bound s)
      | none => if isPrintable c then after [c] (blockFrom mark bound s) else none

def openedBlock (mark : Char) (s : List Char) : Option (List Char × List Char) :=
  blockFrom mark s ((newline? s).getD s)

def string : Reads String := fun s =>
  let chars :=
    match s with
    | '"' :: '"' :: '"' :: s => openedBlock '"' s
    | '"' :: s => lineString s
    | '\'' :: '\'' :: '\'' :: s => openedBlock '\'' s
    | '\'' :: s => lineLiteral s
    | _ => none
  chars.map fun (cs, s) => (String.ofList cs, s)

/-! ### Keys -/

def isBareKey (c : Char) : Bool := c.isAlphanum || c == '_' || c == '-'

/-- One part of a key. A string over several lines is none. -/
def keyPart : Reads String := fun s =>
  match s with
  | '"' :: s => (lineString s).map fun (cs, s) => (String.ofList cs, s)
  | '\'' :: s => (lineLiteral s).map fun (cs, s) => (String.ofList cs, s)
  | s =>
    let bare := s.takeWhile isBareKey
    if bare.isEmpty then none else some (String.ofList bare, s.drop bare.length)

/-- Parts of a key between points, at most `fuel` of them; blanks may stand around each. -/
def keyFrom : Nat → Reads (List String)
  | 0, _ => none
  | fuel + 1, s =>
    match keyPart (skipBlanks s) with
    | none => none
    | some (part, s) =>
      match skipBlanks s with
      | '.' :: s => (keyFrom fuel s).map fun (parts, s) => (part :: parts, s)
      | s => some ([part], s)

def maxKeyParts : Nat := 79

def key : Reads (List String) := keyFrom maxKeyParts

/-! ### Numbers -/

def digitRun (isDigit : Char → Bool) : List Char → List Char × List Char
  | '_' :: d :: s => if isDigit d then let (ds, s) := digitRun isDigit s; (d :: ds, s) else ([], '_' :: d :: s)
  | d :: s => if isDigit d then let (ds, s) := digitRun isDigit s; (d :: ds, s) else ([], d :: s)
  | [] => ([], [])

/-- Digits of a kind, at least one and without an underscore in front. -/
def digits (isDigit : Char → Bool) : Reads (List Char)
  | d :: s => if isDigit d then let (ds, s) := digitRun isDigit s; some (d :: ds, s) else none
  | [] => none

/-- Digits of a decimal number: a zero alone, or no zero in front. -/
def wholeDigits : Reads (List Char)
  | '0' :: s => some (['0'], s)
  | s => digits Char.isDigit s

def fits (v : Int) : Option Int64 :=
  if Int64.minValue.toInt ≤ v ∧ v ≤ Int64.maxValue.toInt then some (Int64.ofInt v) else none

def valueIn (base : Nat) (ds : List Char) : Nat :=
  ds.foldl (fun v d => v * base + (Text.hexDigit? d).getD 0) 0

def basedInteger (base : Nat) (s : List Char) : Option (Int64 × List Char) :=
  let isDigit (c : Char) : Bool := match Text.hexDigit? c with
    | some v => v < base
    | none => false
  match digits isDigit s with
  | some (ds, s) => (fits (Int.ofNat (valueIn base ds))).map fun v => (v, s)
  | none => none

def integer : Reads Int64
  | '0' :: 'x' :: s => basedInteger 16 s
  | '0' :: 'o' :: s => basedInteger 8 s
  | '0' :: 'b' :: s => basedInteger 2 s
  | s =>
    let (neg, digits) := Text.takeSign s
    match wholeDigits digits with
    | some (ds, s) =>
      let v := Int.ofNat (Text.digitsNat ds)
      (fits (if neg then -v else v)).map fun v => (v, s)
    | none => none

def exponent (s : List Char) : Option (Int × List Char) :=
  let (neg, s) := Text.takeSign s
  (digits Char.isDigit s).map fun (ds, s) =>
    let v := Int.ofNat (Text.exponentValue ds)
    (if neg then -v else v, s)

def exponent? : List Char → Option (Int × List Char)
  | 'e' :: s => exponent s
  | 'E' :: s => exponent s
  | s => some (0, s)

/-- What follows the whole digits of a float: digits behind a point, an exponent, or both. -/
def fraction : List Char → Option (List Char × Int × List Char)
  | '.' :: s =>
    match digits Char.isDigit s with
    | some (ds, s) => (exponent? s).map fun (e, s) => (ds, e, s)
    | none => none
  | 'e' :: s => (exponent s).map fun (e, s) => ([], e, s)
  | 'E' :: s => (exponent s).map fun (e, s) => ([], e, s)
  | _ => none

def specialFloat (neg : Bool) : Reads Float
  | 'i' :: 'n' :: 'f' :: s => some (Binary64.infinity neg, s)
  | 'n' :: 'a' :: 'n' :: s => some (Binary64.nan, s)
  | _ => none

/-- A float. Digits that denote a number too large for a double are refused, unless it is negative. -/
def float : Reads Float := fun s =>
  let (neg, rest) := Text.takeSign s
  match specialFloat neg rest with
  | some r => some r
  | none =>
    match wholeDigits rest with
    | none => none
    | some (whole, rest) =>
      match fraction rest with
      | none => none
      | some (frac, e, rest) =>
        let x := Text.Numeral.value ⟨neg, whole, frac, e⟩
        if x.isInf && !neg then none else some (x, rest)

/-! ### Moments -/

def fixedDigits (n : Nat) : Reads Nat := fun s =>
  let ds := s.take n
  if ds.length = n && ds.all Char.isDigit then some (Text.digitsNat ds, s.drop n) else none

def twoDigits (low high : Nat) : Reads Nat := fun s =>
  match fixedDigits 2 s with
  | some (v, s) => if low ≤ v && v ≤ high then some (v, s) else none
  | none => none

def char? (c : Char) : List Char → Option (List Char)
  | d :: s => if c = d then some s else none
  | [] => none

def isLeap (year : Nat) : Bool :=
  year % 4 == 0 && (year % 100 != 0 || year % 400 == 0)

def daysIn (year month : Nat) : Nat :=
  if month = 2 then (if isLeap year then 29 else 28)
  else if month = 4 || month = 6 || month = 9 || month = 11 then 30
  else 31

def date? (s : List Char) : Option (List Char) := do
  let (year, s) ← fixedDigits 4 s
  let s ← char? '-' s
  let (month, s) ← twoDigits 1 12 s
  let s ← char? '-' s
  let (_, s) ← twoDigits 1 (daysIn year month) s
  return s

def time? (s : List Char) : Option (List Char) := do
  let (_, s) ← twoDigits 0 23 s
  let s ← char? ':' s
  let (_, s) ← twoDigits 0 59 s
  let s ← char? ':' s
  let (_, s) ← twoDigits 0 60 s
  match s with
  | '.' :: d :: rest => if d.isDigit then return rest.dropWhile Char.isDigit else none
  | '.' :: [] => none
  | s => return s

/-- Skip a distance from universal time, if there is one. -/
def skipOffset (s : List Char) : List Char :=
  let offset? (s : List Char) : Option (List Char) := do
    let (_, s) ← twoDigits 0 23 s
    let s ← char? ':' s
    let (_, s) ← twoDigits 0 59 s
    return s
  match s with
  | 'Z' :: rest => rest
  | 'z' :: rest => rest
  | '+' :: rest => (offset? rest).getD s
  | '-' :: rest => (offset? rest).getD s
  | s => s

def moment? (s : List Char) : Option (List Char) :=
  match date? s with
  | none => time? s
  | some s =>
    match s with
    | c :: rest =>
      if c = 'T' || c = 't' || c = ' ' then
        match time? rest with
        | some rest => some (skipOffset rest)
        | none => some s
      else some s
    | [] => some []

end Blockwork.Toml
