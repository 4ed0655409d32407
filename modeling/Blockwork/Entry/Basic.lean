/-! # Entry points
The operations of the running program that lowered code may call. Lowering keeps a root frame around
code that calls one that may allocate. -/

namespace Blockwork

inductive WordClass where
  | pointer
  | integer
  | float
  | bool
  deriving DecidableEq, Repr

/-- Calling shape of an entry point. The first pointer of most of them is the session. -/
structure Signature where
  params : List WordClass
  result : Option WordClass
  allocates : Bool
  deriving DecidableEq, Repr

inductive Entry where
  | rootBegin
  | rootEnd
  | rootSave
  | rootRestore
  | flush
  | addRoot
  | addTempRoot
  | collect
  | pollStop
  | anyNothing
  | anyFromInteger
  | anyFromFloat
  | anyFromBool
  | anyFromColor
  | anyFromString
  | anyFromList
  | integerFromAny
  | floatFromAny
  | boolFromAny
  | colorFromAny
  | stringFromAny
  | listFromAny
  | anyIsEq
  | anyTypeName
  | stringFromLiteral
  | stringFromInteger
  | stringFromFloat
  | stringFromBool
  | stringFromColor
  | stringToInteger
  | stringToFloat
  | stringJoin
  | stringLength
  | stringLetterIn
  | stringSubstring
  | stringOrd
  | stringChr
  | stringIsEq
  | listNew
  | listAdd
  | listGet
  | listSet
  | listLength
  | printLiteral
  | printString
  | printInteger
  | printFloat
  | printBool
  | printColor
  | printList
  | printAny
  | termInput
  | termGetChar
  | termSetFgColor
  | termSetBgColor
  | termResetColor
  | termSetClearColor
  | termClear
  | termSetCursor
  | termCursorX
  | termCursorY
  | termCursorMaxX
  | termCursorMaxY
  | sleep
  | random
  | unixTime
  | intPow
  | floatPow
  | floatRem
  | math
  deriving DecidableEq, Repr

namespace Entry

def all : List Entry :=
  [.rootBegin, .rootEnd, .rootSave, .rootRestore, .flush, .addRoot, .addTempRoot, .collect,
   .pollStop, .anyNothing, .anyFromInteger, .anyFromFloat, .anyFromBool, .anyFromColor,
   .anyFromString, .anyFromList, .integerFromAny, .floatFromAny, .boolFromAny, .colorFromAny,
   .stringFromAny, .listFromAny, .anyIsEq, .anyTypeName, .stringFromLiteral,
   .stringFromInteger, .stringFromFloat, .stringFromBool, .stringFromColor, .stringToInteger,
   .stringToFloat, .stringJoin, .stringLength, .stringLetterIn, .stringSubstring, .stringOrd,
   .stringChr, .stringIsEq, .listNew, .listAdd, .listGet, .listSet, .listLength,
   .printLiteral, .printString, .printInteger, .printFloat, .printBool, .printColor,
   .printList, .printAny, .termInput, .termGetChar, .termSetFgColor, .termSetBgColor,
   .termResetColor, .termSetClearColor, .termClear, .termSetCursor, .termCursorX,
   .termCursorY, .termCursorMaxX, .termCursorMaxY, .sleep, .random, .unixTime, .intPow,
   .floatPow, .floatRem, .math]

def name : Entry → String
  | rootBegin => "gc_root_begin"
  | rootEnd => "gc_root_end"
  | rootSave => "gc_root_save"
  | rootRestore => "gc_root_restore"
  | flush => "gc_flush"
  | addRoot => "gc_add_root"
  | addTempRoot => "gc_add_temp_root"
  | collect => "gc_collect"
  | pollStop => "poll_stop"
  | anyNothing => "any_nothing"
  | anyFromInteger => "any_from_integer"
  | anyFromFloat => "any_from_float"
  | anyFromBool => "any_from_bool"
  | anyFromColor => "any_from_color"
  | anyFromString => "any_from_string"
  | anyFromList => "any_from_list"
  | integerFromAny => "integer_from_any"
  | floatFromAny => "float_from_any"
  | boolFromAny => "bool_from_any"
  | colorFromAny => "color_from_any"
  | stringFromAny => "string_from_any"
  | listFromAny => "list_from_any"
  | anyIsEq => "any_is_eq"
  | anyTypeName => "any_type_name"
  | stringFromLiteral => "string_from_literal"
  | stringFromInteger => "string_from_integer"
  | stringFromFloat => "string_from_float"
  | stringFromBool => "string_from_bool"
  | stringFromColor => "string_from_color"
  | stringToInteger => "string_to_integer"
  | stringToFloat => "string_to_float"
  | stringJoin => "string_join"
  | stringLength => "string_length"
  | stringLetterIn => "string_letter_in"
  | stringSubstring => "string_substring"
  | stringOrd => "string_ord"
  | stringChr => "string_chr"
  | stringIsEq => "string_is_eq"
  | listNew => "list_new"
  | listAdd => "list_add"
  | listGet => "list_get"
  | listSet => "list_set"
  | listLength => "list_length"
  | printLiteral => "term_print_literal"
  | printString => "term_print_string"
  | printInteger => "term_print_integer"
  | printFloat => "term_print_float"
  | printBool => "term_print_bool"
  | printColor => "term_print_color"
  | printList => "term_print_list"
  | printAny => "term_print_any"
  | termInput => "term_input"
  | termGetChar => "term_get_char"
  | termSetFgColor => "term_set_fg_color"
  | termSetBgColor => "term_set_bg_color"
  | termResetColor => "term_reset_color"
  | termSetClearColor => "term_set_clear_color"
  | termClear => "term_clear"
  | termSetCursor => "term_set_cursor"
  | termCursorX => "term_cursor_x"
  | termCursorY => "term_cursor_y"
  | termCursorMaxX => "term_cursor_max_x"
  | termCursorMaxY => "term_cursor_max_y"
  | sleep => "sleep"
  | random => "random"
  | unixTime => "unix_time"
  | intPow => "int_pow"
  | floatPow => "float_pow"
  | floatRem => "float_rem"
  | math => "math"

def symbol (e : Entry) : String :=
  "scrap_" ++ e.name

def ofSymbol? (s : String) : Option Entry :=
  all.find? (·.symbol == s)

def signature : Entry → Signature
  | rootBegin => ⟨[.pointer], none, false⟩
  | rootEnd => ⟨[.pointer], none, false⟩
  | rootSave => ⟨[.pointer], none, false⟩
  | rootRestore => ⟨[.pointer], none, false⟩
  | flush => ⟨[.pointer], none, false⟩
  | addRoot => ⟨[.pointer, .pointer], none, false⟩
  | addTempRoot => ⟨[.pointer, .pointer], none, false⟩
  | collect => ⟨[.pointer], none, false⟩
  | pollStop => ⟨[.pointer], some .bool, false⟩
  | anyNothing => ⟨[], some .pointer, false⟩
  | anyFromInteger => ⟨[.pointer, .integer], some .pointer, true⟩
  | anyFromFloat => ⟨[.pointer, .float], some .pointer, true⟩
  | anyFromBool => ⟨[.pointer, .bool], some .pointer, true⟩
  | anyFromColor => ⟨[.pointer, .integer], some .pointer, true⟩
  | anyFromString => ⟨[.pointer, .pointer], some .pointer, true⟩
  | anyFromList => ⟨[.pointer, .pointer], some .pointer, true⟩
  | integerFromAny => ⟨[.pointer], some .integer, false⟩
  | floatFromAny => ⟨[.pointer], some .float, false⟩
  | boolFromAny => ⟨[.pointer], some .bool, false⟩
  | colorFromAny => ⟨[.pointer], some .integer, false⟩
  | stringFromAny => ⟨[.pointer, .pointer], some .pointer, true⟩
  | listFromAny => ⟨[.pointer, .pointer], some .pointer, true⟩
  | anyIsEq => ⟨[.pointer, .pointer], some .bool, false⟩
  | anyTypeName => ⟨[.pointer, .pointer], some .pointer, true⟩
  | stringFromLiteral => ⟨[.pointer, .pointer, .integer], some .pointer, true⟩
  | stringFromInteger => ⟨[.pointer, .integer], some .pointer, true⟩
  | stringFromFloat => ⟨[.pointer, .float], some .pointer, true⟩
  | stringFromBool => ⟨[.pointer, .bool], some .pointer, true⟩
  | stringFromColor => ⟨[.pointer, .integer], some .pointer, true⟩
  | stringToInteger => ⟨[.pointer], some .integer, false⟩
  | stringToFloat => ⟨[.pointer], some .float, false⟩
  | stringJoin => ⟨[.pointer, .pointer, .pointer], some .pointer, true⟩
  | stringLength => ⟨[.pointer], some .integer, false⟩
  | stringLetterIn => ⟨[.pointer, .integer, .pointer], some .pointer, true⟩
  | stringSubstring => ⟨[.pointer, .integer, .integer, .pointer], some .pointer, true⟩
  | stringOrd => ⟨[.pointer], some .integer, false⟩
  | stringChr => ⟨[.pointer, .integer], some .pointer, true⟩
  | stringIsEq => ⟨[.pointer, .pointer], some .bool, false⟩
  | listNew => ⟨[.pointer], some .pointer, true⟩
  | listAdd => ⟨[.pointer, .pointer, .integer, .integer], none, true⟩
  | listGet => ⟨[.pointer, .pointer, .integer], some .pointer, true⟩
  | listSet => ⟨[.pointer, .pointer, .integer, .integer, .integer], none, false⟩
  | listLength => ⟨[.pointer], some .integer, false⟩
  | printLiteral => ⟨[.pointer, .pointer, .integer], some .integer, false⟩
  | printString => ⟨[.pointer, .pointer], some .integer, false⟩
  | printInteger => ⟨[.pointer, .integer], some .integer, false⟩
  | printFloat => ⟨[.pointer, .float], some .integer, false⟩
  | printBool => ⟨[.pointer, .bool], some .integer, false⟩
  | printColor => ⟨[.pointer, .integer], some .integer, false⟩
  | printList => ⟨[.pointer, .pointer], some .integer, false⟩
  | printAny => ⟨[.pointer, .pointer], some .integer, false⟩
  | termInput => ⟨[.pointer], some .pointer, true⟩
  | termGetChar => ⟨[.pointer], some .pointer, true⟩
  | termSetFgColor => ⟨[.pointer, .integer], none, false⟩
  | termSetBgColor => ⟨[.pointer, .integer], none, false⟩
  | termResetColor => ⟨[.pointer], none, false⟩
  | termSetClearColor => ⟨[.pointer, .integer], none, false⟩
  | termClear => ⟨[.pointer], none, false⟩
  | termSetCursor => ⟨[.pointer, .integer, .integer], none, false⟩
  | termCursorX => ⟨[.pointer], some .integer, false⟩
  | termCursorY => ⟨[.pointer], some .integer, false⟩
  | termCursorMaxX => ⟨[.pointer], some .integer, false⟩
  | termCursorMaxY => ⟨[.pointer], some .integer, false⟩
  | sleep => ⟨[.pointer, .integer], some .integer, false⟩
  | random => ⟨[.pointer, .integer, .integer], some .integer, false⟩
  | unixTime => ⟨[], some .integer, false⟩
  | intPow => ⟨[.integer, .integer], some .integer, false⟩
  | floatPow => ⟨[.float, .float], some .float, false⟩
  | floatRem => ⟨[.float, .float], some .float, false⟩
  | math => ⟨[.integer, .float], some .float, false⟩

def allocates (e : Entry) : Bool :=
  e.signature.allocates

end Entry

end Blockwork
