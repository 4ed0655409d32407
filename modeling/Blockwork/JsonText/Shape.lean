import Blockwork.JsonText.Token

/-! # Shapes of JSON values

A record may also be written as the list of its fields in order. What stands inside a bracket is
given as `none` where nesting has reached its limit. -/

namespace Blockwork.JsonText

def string : Reader String := do
  match ← peek with
  | none => refuse .incomplete
  | some '"' => do
    advance
    stringRest
  | some _ => refuseValue

/-! ### Lists -/

def moreItems (first : Bool) : Reader Bool := do
  match ← peek with
  | none => refuse .incomplete
  | some ']' => return false
  | some c =>
    if first then return true
    else if c = ',' then
      advance
      match ← peek with
      | none => refuse .incomplete
      | some ']' => refuse .malformed
      | some _ => return true
    else refuse .malformed

def endList : Reader Unit := do
  match ← peek with
  | none => refuse .incomplete
  | some ']' => advance
  | some _ => refuse .malformed

/-- Read items up to the end of a list, in at most as many rounds as `bound` is long. Every item takes
at least one character, so a text as long as the bound is used up when the rounds are. -/
def itemsFrom {α : Type} (item : Reader α) : List Char → Bool → Reader (List α)
  | [], _ => refuse .incomplete
  | _ :: bound, first => do
    if ← moreItems first then
      let a ← item
      return a :: (← itemsFrom item bound false)
    else
      endList
      return []

def list {α : Type} (item : Option (Reader α)) : Reader (List α) := do
  match ← peek with
  | none => refuse .incomplete
  | some '[' =>
    match item with
    | none => refuse .malformed
    | some item => do
      advance
      itemsFrom item (← get) true
  | some _ => refuseValue

/-! ### Records -/

/-- A field of a record that is being read: its name, whether it was read already, and how it is
read. -/
structure Member (σ : Type) where
  name : String
  filled : σ → Bool
  read : σ → Reader σ

def colon : Reader Unit := do
  match ← peek with
  | none => refuse .incomplete
  | some ':' => advance
  | some _ => refuse .malformed

def moreFields (first : Bool) : Reader Bool := do
  match ← peek with
  | none => refuse .incomplete
  | some '\x7d' => return false
  | some c =>
    if first then
      if c = '"' then return true else refuse .malformed
    else if c = ',' then
      advance
      match ← peek with
      | none => refuse .incomplete
      | some '"' => return true
      | some _ => refuse .malformed
    else refuse .malformed

def fieldValue {σ : Type} (fields : List (Member σ)) (name : String) (st : σ) : Reader σ :=
  match fields.find? (·.name == name) with
  | some f =>
    if f.filled st then refuse .wrongShape
    else do
      colon
      f.read st
  | none => do
    colon
    skipValue
    return st

def fieldsFrom {σ : Type} (fields : List (Member σ)) : List Char → Bool → σ → Reader σ
  | [], _, _ => refuse .incomplete
  | _ :: bound, first, st => do
    if ← moreFields first then
      advance
      let name ← stringRest
      let st ← fieldValue fields name st
      fieldsFrom fields bound false st
    else
      advance
      return st

def fieldList {σ : Type} : List (Member σ) → Bool → σ → Reader σ
  | [], _, st => return st
  | f :: rest, first, st => do
    if ← moreItems first then
      let st ← f.read st
      fieldList rest false st
    else fieldList rest first st

def accept {α : Type} : Option α → Reader α
  | some a => return a
  | none => refuse .wrongShape

def record {σ α : Type} (fields : Option (List (Member σ))) (empty : σ) (finish : σ → Option α) :
    Reader α := do
  match ← peek with
  | none => refuse .incomplete
  | some '[' =>
    match fields with
    | none => refuse .malformed
    | some fields => do
      advance
      let st ← fieldList fields true empty
      let a ← accept (finish st)
      endList
      return a
  | some '\x7b' =>
    match fields with
    | none => refuse .malformed
    | some fields => do
      advance
      let st ← fieldsFrom fields (← get) true empty
      accept (finish st)
  | some _ => refuseValue

/-! ### Tagged values -/

def tag : Reader String := do
  match ← peek with
  | none => refuse .incomplete
  | some '"' => do
    advance
    stringRest
  | some _ => refuse .malformed

def tagged {α : Type} (cases : Option (List (String × Reader α))) : Reader α := do
  match ← peek with
  | none => refuse .incomplete
  | some '\x7b' =>
    match cases with
    | none => refuse .malformed
    | some cases => do
      advance
      match cases.lookup (← tag) with
      | none => refuse .wrongShape
      | some value => do
        colon
        let a ← value
        match ← peek with
        | none => refuse .incomplete
        | some '\x7d' => do
          advance
          return a
        | some _ => refuse .malformed
  | some '"' => do
    advance
    let _ ← stringRest
    refuse .wrongShape
  | some _ => refuse .malformed

def whole {α : Type} (r : Reader α) (s : List Char) : Except Fault α :=
  match r s with
  | .error f => .error f
  | .ok (a, rest) => if rest.all isBlank then .ok a else .error .malformed

end Blockwork.JsonText
