import Blockwork.Text.Color

/-! # Writing JSON text

A tree of strings, lists and records is written on indented lines; an empty list or record stays on
one line. -/

namespace Blockwork.JsonText

inductive Tree where
  | text (s : String)
  | list (items : List Tree)
  | record (fields : List (String × Tree))

def escapeChar (c : Char) : List Char :=
  match c with
  | '"' => ['\\', '"']
  | '\\' => ['\\', '\\']
  | '\x08' => ['\\', 'b']
  | '\x0c' => ['\\', 'f']
  | '\n' => ['\\', 'n']
  | '\r' => ['\\', 'r']
  | '\t' => ['\\', 't']
  | c => if c.toNat < 0x20 then ['\\', 'u'] ++ Text.hexText 4 c.toNat else [c]

def quote (s : String) : List Char :=
  '"' :: s.toList.flatMap escapeChar ++ ['"']

def newline (level : Nat) : List Char :=
  '\n' :: List.replicate (2 * level) ' '

namespace Tree

mutual

def render (level : Nat) : Tree → List Char
  | .text s => quote s
  | .list [] => ['[', ']']
  | .list (t :: ts) =>
    '[' :: newline (level + 1) ++ render (level + 1) t ++ renderItems (level + 1) ts ++
      newline level ++ [']']
  | .record [] => ['\x7b', '\x7d']
  | .record ((k, t) :: fs) =>
    '\x7b' :: newline (level + 1) ++ quote k ++ [':', ' '] ++ render (level + 1) t ++
      renderFields (level + 1) fs ++ newline level ++ ['\x7d']

def renderItems (level : Nat) : List Tree → List Char
  | [] => []
  | t :: ts => ',' :: newline level ++ render level t ++ renderItems level ts

def renderFields (level : Nat) : List (String × Tree) → List Char
  | [] => []
  | (k, t) :: fs =>
    ',' :: newline level ++ quote k ++ [':', ' '] ++ render level t ++ renderFields level fs

end

mutual

def depth : Tree → Nat
  | .text _ => 0
  | .list ts => depthItems ts + 1
  | .record fs => depthFields fs + 1

def depthItems : List Tree → Nat
  | [] => 0
  | t :: ts => max (depth t) (depthItems ts)

def depthFields : List (String × Tree) → Nat
  | [] => 0
  | (_, t) :: fs => max (depth t) (depthFields fs)

end

end Tree

end Blockwork.JsonText
