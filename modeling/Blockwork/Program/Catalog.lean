/-! # Catalog of built-in blocks

Every built-in block has a name, a part it plays in the structure of a chain, and a least number of
arguments. -/

namespace Blockwork

inductive Hat where
  | onStart
  | defineBlock
  deriving DecidableEq, Repr

inductive Opener where
  | whenTrue
  | whileTrue
  | counted
  | forever
  | doNothing
  deriving DecidableEq, Repr

/-- Blocks that close the scope before them and open their own. -/
inductive Continuation where
  | elseIf
  | otherwise
  deriving DecidableEq, Repr

inductive Operation where
  | leave
  | print | println | input | getChar
  | setForeground | setBackground | resetColors | clear | setClearColor
  | setCursor | cursorX | cursorY | cursorMaxX | cursorMaxY
  | plus | minus | mult | div | rem | pow | math | pi
  | less | lessEq | more | moreEq | eq | notEq
  | not | and | or | true | false
  | bitNot | bitAnd | bitOr | bitXor
  | sleep | random | unixTime
  | toInteger | toFloat | toString | toBool | toColor
  | typeOf | nothing | comment | collect
  | declare | getVariable | setVariable
  | createList | listAdd | listGet | listSet | listLength
  | join | letterIn | substring | length | ord | chr
  deriving DecidableEq, Repr

inductive Builtin where
  | hat (h : Hat)
  | opener (o : Opener)
  | continuation (c : Continuation)
  | close
  | operation (o : Operation)
  deriving DecidableEq, Repr

inductive Role where
  | hat
  | opens
  | continues
  | closes
  | plain
  deriving DecidableEq, Repr

namespace Builtin

def role : Builtin → Role
  | hat _ => .hat
  | opener _ => .opens
  | continuation _ => .continues
  | close => .closes
  | operation _ => .plain

def catalog : List (String × Builtin × Nat) :=
  [("on_start", hat .onStart, 0), ("define_block", hat .defineBlock, 1), ("end", close, 0),
   ("if", opener .whenTrue, 1), ("while", opener .whileTrue, 1), ("repeat", opener .counted, 1),
   ("loop", opener .forever, 0), ("do_nothing", opener .doNothing, 0),
   ("else_if", continuation .elseIf, 1), ("else", continuation .otherwise, 0),
   ("return", operation .leave, 0),
   ("print", operation .print, 1), ("println", operation .println, 1),
   ("input", operation .input, 0), ("get_char", operation .getChar, 0),
   ("set_fg_color", operation .setForeground, 1), ("set_bg_color", operation .setBackground, 1),
   ("reset_color", operation .resetColors, 0), ("term_clear", operation .clear, 0),
   ("term_set_clear", operation .setClearColor, 1), ("set_cursor", operation .setCursor, 2),
   ("cursor_x", operation .cursorX, 0), ("cursor_y", operation .cursorY, 0),
   ("cursor_max_x", operation .cursorMaxX, 0), ("cursor_max_y", operation .cursorMaxY, 0),
   ("plus", operation .plus, 2), ("minus", operation .minus, 2), ("mult", operation .mult, 2),
   ("div", operation .div, 2), ("rem", operation .rem, 2), ("pow", operation .pow, 2),
   ("math", operation .math, 2), ("pi", operation .pi, 0),
   ("less", operation .less, 2), ("less_eq", operation .lessEq, 2), ("more", operation .more, 2),
   ("more_eq", operation .moreEq, 2), ("eq", operation .eq, 2), ("not_eq", operation .notEq, 2),
   ("not", operation .not, 1), ("and", operation .and, 2), ("or", operation .or, 2),
   ("true", operation .true, 0), ("false", operation .false, 0),
   ("bit_not", operation .bitNot, 1), ("bit_and", operation .bitAnd, 2),
   ("bit_or", operation .bitOr, 2), ("bit_xor", operation .bitXor, 2),
   ("sleep", operation .sleep, 1), ("random", operation .random, 2),
   ("unix_time", operation .unixTime, 0),
   ("convert_int", operation .toInteger, 1), ("convert_float", operation .toFloat, 1),
   ("convert_str", operation .toString, 1), ("convert_bool", operation .toBool, 1),
   ("convert_color", operation .toColor, 1), ("typeof", operation .typeOf, 1),
   ("nothing", operation .nothing, 0), ("comment", operation .comment, 0),
   ("gc_collect", operation .collect, 0),
   ("decl_var", operation .declare, 2), ("get_var", operation .getVariable, 1),
   ("set_var", operation .setVariable, 2),
   ("create_list", operation .createList, 0), ("list_add", operation .listAdd, 2),
   ("list_get", operation .listGet, 2), ("list_set", operation .listSet, 3),
   ("list_length", operation .listLength, 1),
   ("join", operation .join, 2), ("letter_in", operation .letterIn, 2),
   ("substring", operation .substring, 3), ("length", operation .length, 1),
   ("ord", operation .ord, 1), ("chr", operation .chr, 1)]

def find? (id : String) : Option (Builtin × Nat) :=
  catalog.lookup id

end Builtin

end Blockwork
