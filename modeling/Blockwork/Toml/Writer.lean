import Blockwork.Text.Color

/-! # Writing TOML values

A string is written in the plainest of four forms that needs no escapes. Only a string that has no
such form is written with escapes. -/

namespace Blockwork.Toml

inductive Quoting where
  | basic
  | literal
  | longBasic
  | longLiteral
  deriving DecidableEq, Repr

/-- A control character that only an escape can show; a tab and a line end are none. -/
def needsEscape (c : Char) : Bool :=
  (c.toNat < 0x20 && c != '\t' && c != '\n') || c.toNat == 0x7F

def longestRun (mark : Char) : List Char → Nat → Nat
  | [], run => run
  | c :: cs, run => if c = mark then longestRun mark cs (run + 1) else max run (longestRun mark cs 0)

def quoting (cs : List Char) : Quoting :=
  let lines := cs.contains '\n'
  let slash := cs.contains '\\'
  if cs.any needsEscape then (if lines then .longBasic else .basic)
  else if !slash && !lines && !cs.contains '"' then .basic
  else if !lines && !cs.contains '\'' then .literal
  else if !slash && longestRun '"' cs 0 ≤ 2 then .longBasic
  else if longestRun '\'' cs 0 ≤ 2 then .longLiteral
  else if lines then .longBasic
  else .basic

def Quoting.marks : Quoting → String
  | basic => "\""
  | literal => "'"
  | longBasic => "\"\"\""
  | longLiteral => "'''"

def Quoting.isLong : Quoting → Bool
  | longBasic => true
  | longLiteral => true
  | _ => false

/-- Escape of a character other than a double mark, if it has one between double marks. -/
def escape? (long : Bool) (c : Char) : Option (List Char) :=
  match c with
  | '\x08' => some ['\\', 'b']
  | '\t' => some ['\\', 't']
  | '\n' => if long then none else some ['\\', 'n']
  | '\x0c' => some ['\\', 'f']
  | '\r' => some ['\\', 'r']
  | '\\' => some ['\\', '\\']
  | c =>
    if needsEscape c then some (['\\', 'u'] ++ (Text.hexText 4 c.toNat).map Char.toUpper) else none

/-- Text between double marks. After `run` double marks in a row, one more than the form can hold is
escaped. -/
def escaped (long : Bool) : List Char → Nat → List Char
  | [], _ => []
  | c :: cs, run =>
    if c = '"' then
      if run = (if long then 2 else 0) then '\\' :: '"' :: escaped long cs 0
      else '"' :: escaped long cs (run + 1)
    else (escape? long c).getD [c] ++ escaped long cs 0

/-- Text of a string value. A long form starts on a line of its own when the string has lines. -/
def quote (s : String) : String :=
  let cs := s.toList
  let form := quoting cs
  let start := if form.isLong && cs.contains '\n' then "\n" else ""
  let body :=
    match form with
    | .basic => String.ofList (escaped false cs 0)
    | .longBasic => String.ofList (escaped true cs 0)
    | .literal => s
    | .longLiteral => s
  form.marks ++ start ++ body ++ form.marks

/-- Text of a list of strings: on one line up to one item, else on a line for each. -/
def quoteList : List String → String
  | [] => "[]"
  | [s] => "[" ++ quote s ++ "]"
  | items => "[\n" ++ String.join (items.map fun s => "    " ++ quote s ++ ",\n") ++ "]"

end Blockwork.Toml
