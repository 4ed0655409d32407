import Blockwork.Toml.Lexeme

/-! # TOML documents
While a document is read, tables remember how they came about: a table may be opened by a header only
once and may be extended by dotted keys only if dotted keys made it. -/

namespace Blockwork.Toml

inductive Value where
  | text (s : String)
  | integer (v : Int64)
  | float (x : Float)
  | bool (b : Bool)
  | moment
  | list (items : List Value)
  | table (entries : List (String × Value))
  deriving Inhabited

/-- A value written in one place, a table, or the tables that were opened one by one under one name.
A table is implicit when only names below it were mentioned, and dotted when a dotted key made it.
-/
inductive Item where
  | value (v : Value)
  | table (implicit dotted : Bool) (entries : List (String × Item))
  | rows (tables : List (List (String × Item)))
  deriving Inhabited

abbrev Entries := List (String × Item)

namespace Entries

def put (es : Entries) (k : String) (i : Item) : Entries :=
  if es.any (·.1 == k) then es.map fun e => if e.1 == k then (k, i) else e else es ++ [(k, i)]

def erase (es : Entries) (k : String) : Entries :=
  es.filter (·.1 != k)

end Entries

/-- Go down a path and change the table at its end; `change` is told whether dotted keys made that
table. Missing tables are made on the way, and the last of several rows is entered. A dotted path
enters no table that a header has opened. -/
def descend {β : Type} (dotted : Bool) (change : Bool → Entries → Option (β × Entries)) :
    List String → Bool → Entries → Option (β × Entries)
  | [], isDotted, es => change isDotted es
  | k :: path, _, es =>
    match es.lookup k with
    | none => do
      let (b, sub) ← descend dotted change path dotted []
      return (b, es.put k (.table true dotted sub))
    | some (.value _) => none
    | some (.rows tables) =>
      match tables.getLast? with
      | none => none
      | some last => do
        let (b, sub) ← descend dotted change path false last
        return (b, es.put k (.rows (tables.dropLast ++ [sub])))
    | some (.table implicit isDotted sub) =>
      if dotted && !implicit then none
      else do
        let (b, sub) ← descend dotted change path isDotted sub
        return (b, es.put k (.table implicit isDotted sub))

/-- Add an entry that must be new. A path of several parts has to end in a table that dotted keys
made, and a single part in one that they did not make. -/
def addEntry (es : Entries) (path : List String) (i : Item) : Option Entries :=
  match path.getLast? with
  | none => none
  | some k =>
    let parents := path.dropLast
    (descend true (fun isDotted sub =>
      if isDotted = parents.isEmpty || (sub.lookup k).isSome then none
      else some ((), sub.put k i)) parents false es).map Prod.snd

mutual

def Item.toValue : Item → Value
  | .value v => v
  | .table _ _ es => .table (valueEntries es)
  | .rows tables => .list (rowValues tables)

def valueEntries : List (String × Item) → List (String × Value)
  | [] => []
  | (k, i) :: es => (k, i.toValue) :: valueEntries es

def rowValues : List (List (String × Item)) → List Value
  | [] => []
  | es :: rows => .table (valueEntries es) :: rowValues rows

end

/-! ### Values -/

def scalarValue (s : List Char) : Option (Value × List Char) :=
  match moment? s with
  | some s => some (.moment, s)
  | none =>
    match float s with
    | some (x, s) => some (.float x, s)
    | none => (integer s).map fun (v, s) => (.integer v, s)

/-- Items of a list up to its end, at most as many as `bound` is long. A comma may follow the last. -/
def listItems (item : Reads Value) : List Char → Reads (List Value)
  | [], _ => none
  | _ :: bound, s =>
    match skipFiller s with
    | ']' :: s => some ([], s)
    | s =>
      match item s with
      | none => none
      | some (v, s) =>
        match skipFiller s with
        | ',' :: s => (listItems item bound s).map fun (vs, s) => (v :: vs, s)
        | ']' :: s => some ([v], s)
        | _ => none

def pair (value : Reads Value) : Reads (List String × Value) := fun s =>
  match key s with
  | some (path, '=' :: s) =>
    (value (skipBlanks s)).map fun (v, s) => ((path, v), s)
  | _ => none

/-- Pairs of a table on one line up to its end, at most as many as `bound` is long. No comma follows the
last. -/
def tablePairs (value : Reads Value) : List Char → Entries → Reads Entries
  | [], _, _ => none
  | _ :: bound, es, s =>
    match pair value s with
    | none => none
    | some ((path, v), s) =>
      match addEntry es path (.value v) with
      | none => none
      | some es =>
        match skipBlanks s with
        | ',' :: s => tablePairs value bound es s
        | '\x7d' :: s => some (es, s)
        | _ => none

def lineTable (value : Reads Value) (s : List Char) : Option (Value × List Char) :=
  match skipBlanks s with
  | '\x7d' :: s => some (.table [], s)
  | s => (tablePairs value s [] s).map fun (es, s) => (.table (valueEntries es), s)

def value (depth : Nat) : Reads Value := fun s =>
  match s with
  | '"' :: _ => (string s).map fun (t, s) => (.text t, s)
  | '\'' :: _ => (string s).map fun (t, s) => (.text t, s)
  | 't' :: 'r' :: 'u' :: 'e' :: s => some (.bool true, s)
  | 'f' :: 'a' :: 'l' :: 's' :: 'e' :: s => some (.bool false, s)
  | '[' :: s =>
    match depth with
    | 0 => none
    | depth + 1 =>
      (listItems (value depth) s s).map fun (vs, s) => (.list vs, s)
  | '\x7b' :: s =>
    match depth with
    | 0 => none
    | depth + 1 => lineTable (value depth) s
  | s => scalarValue s

def maxNesting : Nat := 79

/-! ### Lines -/

structure Draft where
  root : Entries := []
  current : Entries := []
  path : List String := []
  isRow : Bool := false

def Draft.finish (d : Draft) : Option Entries :=
  match d.path.getLast? with
  | none => some d.current
  | some k =>
    (descend false (fun _ es =>
      if d.isRow then
        match es.lookup k with
        | none => some ((), es.put k (.rows [d.current]))
        | some (.rows tables) => some ((), es.put k (.rows (tables ++ [d.current])))
        | some _ => none
      else
        match es.lookup k with
        | none => some ((), es.put k (.table false false d.current))
        | some _ => none) d.path.dropLast false d.root).map Prod.snd

/-- Open a table. One that was only mentioned keeps the tables below it. -/
def Draft.openTable (d : Draft) (path : List String) : Option Draft := do
  let root ← d.finish
  let k ← path.getLast?
  let (current, root) ←
    descend false (fun _ es =>
      match es.lookup k with
      | none => some ([], es)
      | some (.table true false sub) => some (sub, es.erase k)
      | some _ => none) path.dropLast false root
  return { root, current, path }

def Draft.openRow (d : Draft) (path : List String) : Option Draft := do
  let root ← d.finish
  let k ← path.getLast?
  let (_, root) ←
    descend false (fun _ es =>
      match es.lookup k with
      | none => some ((), es.put k (.rows []))
      | some (.rows _) => some ((), es)
      | some _ => none) path.dropLast false root
  return { root, path, isRow := true }

def Draft.add (d : Draft) (path : List String) (v : Value) : Option Draft :=
  (addEntry d.current path (.value v)).map fun current => { d with current }

def header (d : Draft) (s : List Char) : Option (Draft × List Char) :=
  match s with
  | '[' :: s =>
    match key s with
    | some (path, ']' :: ']' :: s) => (d.openRow path).map fun d => (d, s)
    | _ => none
  | s =>
    match key s with
    | some (path, ']' :: s) => (d.openTable path).map fun d => (d, s)
    | _ => none

def line (d : Draft) (s : List Char) : Option (Draft × List Char) :=
  match s with
  | '#' :: _ => some (d, s)
  | '[' :: s => header d s
  | s =>
    match pair (value maxNesting) s with
    | some ((path, v), s) => (d.add path v).map fun d => (d, s)
    | none => none

def lines : Nat → Draft → List Char → Option Draft
  | 0, _, _ => none
  | fuel + 1, d, s =>
    match skipBlanks s with
    | [] => some d
    | s =>
      match newline? s with
      | some s => lines fuel d s
      | none =>
        match line d s with
        | none => none
        | some (d, s) =>
          match endLine? s with
          | none => none
          | some s => lines fuel d s

def skipMark : List Char → List Char
  | '\uFEFF' :: s => s
  | s => s

def parse (text : String) : Option (List (String × Value)) := do
  let s := skipMark text.toList
  let d ← lines (s.length + 1) {} s
  let entries ← d.finish
  return valueEntries entries

end Blockwork.Toml
