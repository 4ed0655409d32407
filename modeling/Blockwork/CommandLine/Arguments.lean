import Blockwork.CommandLine.Page
import Blockwork.Terminal.Size

/-! # Arguments of the command
Options of the whole command may stand on either side of the subcommand, once on each, and the one
nearer to the end counts. The value of an option is checked when the next option is met or the
arguments end, so that a page asked for later does not hide a bad value. -/

namespace Blockwork.CommandLine

inductive Command where
  | run (file : String) (seed : Option UInt64)
  | build (file : String) (output : Option String) (release : Bool)
  | check (file : String)
  deriving DecidableEq, Repr

structure Invocation where
  config : Option String := none
  verbose : Bool := false
  command : Command
  deriving DecidableEq, Repr

inductive UsageError where
  | unknown (argument : String)
  | missingValue
  | unexpectedValue (argument : String)
  | repeated
  | badValue (value : String)
  | missingFile
  | missingCommand
  | empty
  deriving DecidableEq, Repr

inductive Interrupt where
  | page (p : Page)
  | usage (e : UsageError)
  deriving DecidableEq, Repr

/-! ### Options -/

inductive Item where
  | config
  | verbose
  | seed
  | output
  | release
  | file
  | help
  | version
  deriving DecidableEq, Repr

def Item.takesValue : Item → Bool
  | config | seed | output | file => true
  | verbose | release | help | version => false

def Topic.long? : Topic → String → Option Item
  | _, "config" => some .config
  | _, "verbose" => some .verbose
  | _, "help" => some .help
  | command, "version" => some .version
  | run, "seed" => some .seed
  | build, "output" => some .output
  | build, "release" => some .release
  | _, _ => none

def Topic.short? : Topic → Char → Option Item
  | _, 'v' => some .verbose
  | _, 'h' => some .help
  | command, 'V' => some .version
  | build, 'o' => some .output
  | _, _ => none

structure Settings where
  config : Option String := none
  verbose : Bool := false
  seed : Option UInt64 := none
  output : Option String := none
  release : Bool := false
  file : Option String := none
  deriving DecidableEq, Repr

def path? (s : String) : Option String :=
  if s == "" then none else some s

/-- A seed is a number of 64 bits without a minus sign. -/
def seed? (s : String) : Option UInt64 :=
  if s.startsWith "-" then none
  else
    match Text.wholeInt? s.toList with
    | some n => if n.toNat < UInt64.size then some (UInt64.ofNat n.toNat) else none
    | none => none

namespace Settings

def has (s : Settings) : Item → Bool
  | .config => s.config.isSome
  | .verbose => s.verbose
  | .seed => s.seed.isSome
  | .output => s.output.isSome
  | .release => s.release
  | .file => s.file.isSome
  | .help | .version => false

def setValue (s : Settings) (i : Item) (v : String) : Option Settings :=
  match i with
  | .config => (path? v).map fun p => { s with config := some p }
  | .seed => (seed? v).map fun n => { s with seed := some n }
  | .output => (path? v).map fun p => { s with output := some p }
  | .file => (path? v).map fun p => { s with file := some p }
  | .verbose | .release | .help | .version => some s

def accept (s : Settings) (i : Item) (v : String) : Except Interrupt Settings :=
  if s.has i then .error (.usage .repeated)
  else
    match s.setValue i v with
    | some s => .ok s
    | none => .error (.usage (.badValue v))

def raise (s : Settings) (t : Topic) (i : Item) : Except Interrupt Settings :=
  if s.has i then .error (.usage .repeated)
  else
    match i with
    | .help => .error (.page (.help t))
    | .version => .error (.page .version)
    | .verbose => .ok { s with verbose := true }
    | .release => .ok { s with release := true }
    | _ => .ok s

end Settings

/-! ### Reading one side of the subcommand -/

structure Reading where
  topic : Topic
  found : Settings := {}
  /-- What was met last and is not checked yet; it has no value while the value is awaited. -/
  pending : Option (Item × Option String) := none
  fileMet : Bool := false

namespace Reading

def awaits (r : Reading) : Bool :=
  match r.pending with
  | some (_, none) => true
  | _ => false

def settle (r : Reading) : Except Interrupt Reading :=
  match r.pending with
  | none => .ok r
  | some (_, none) => .error (.usage .missingValue)
  | some (i, some v) => do return { r with found := ← r.found.accept i v, pending := none }

def flag (r : Reading) (i : Item) : Except Interrupt Reading := do
  let r ← r.settle
  return { r with found := ← r.found.raise r.topic i }

def option (r : Reading) (i : Item) (attached : Option String) : Except Interrupt Reading := do
  let r ← r.settle
  match attached with
  | some v => return { r with found := ← r.found.accept i v }
  | none => return { r with pending := some (i, none) }

/-- An argument that starts with two dashes, without them. -/
def long (r : Reading) (cs : List Char) : Except Interrupt Reading :=
  let name := String.ofList (cs.takeWhile (· != '='))
  let attached : Option String :=
    match cs.dropWhile (· != '=') with
    | _ :: v => some (String.ofList v)
    | [] => none
  match r.topic.long? name with
  | none => .error (.usage (.unknown ("--" ++ name)))
  | some i =>
    if i.takesValue then r.option i attached
    else if attached.isSome then .error (.usage (.unexpectedValue ("--" ++ name)))
    else r.flag i

/-- Letters after one dash. A letter whose option has a value takes the rest of them. -/
def letters (r : Reading) : List Char → Except Interrupt Reading
  | [] => .ok r
  | c :: cs =>
    match r.topic.short? c with
    | none => .error (.usage (.unknown (String.ofList ['-', c])))
    | some i =>
      if i.takesValue then
        r.option i (match cs with
          | [] => none
          | '=' :: v => some (String.ofList v)
          | v => some (String.ofList v))
      else do letters (← r.flag i) cs

def operand (r : Reading) (a : String) : Except Interrupt Reading :=
  if r.topic = .command || r.fileMet then .error (.usage (.unknown a))
  else do
    let r ← r.settle
    return { r with pending := some (.file, some a), fileMet := true }

def argument (r : Reading) (a : String) : Except Interrupt Reading :=
  match a.toList with
  | '-' :: '-' :: cs => r.long cs
  | '-' :: c :: cs => r.letters (c :: cs)
  | _ =>
    match r.pending with
    | some (i, none) => .ok { r with pending := some (i, some a) }
    | _ => r.operand a

/-- Arguments up to the subcommand, or to their end. After `--` there are only operands. -/
def read (r : Reading) (onlyOperands : Bool) :
    List String → Except Interrupt (Reading × Option (Topic × List String))
  | [] => .ok (r, none)
  | a :: rest =>
    if onlyOperands then do (← r.operand a).read true rest
    else
      match if r.topic = .command && !r.awaits then Topic.ofWord? a else none with
      | some t => .ok (r, some (t, rest))
      | none =>
        if a == "--" then r.read true rest
        else do (← r.argument a).read false rest

end Reading

/-! ### The whole command line -/

def helpPage : List String → Except Interrupt Page
  | [] => .ok (.help .command)
  | [a] =>
    match Topic.ofWord? a with
    | some t => .ok (.help t)
    | none => .error (.usage (.unknown a))
  | a :: b :: _ => .error (.usage (.unknown (if (Topic.ofWord? a).isSome then b else a)))

def commandOf (t : Topic) (s : Settings) : Except Interrupt Command :=
  match s.file with
  | none => .error (.usage .missingFile)
  | some file =>
    match t with
    | .run => .ok (.run file s.seed)
    | .build => .ok (.build file s.output s.release)
    | .check => .ok (.check file)
    | .command | .help => .error (.usage .missingCommand)

def parse (args : List String) : Except Interrupt Invocation := do
  if args.isEmpty then throw (.usage .empty)
  let (outer, rest) ← Reading.read { topic := .command } false args
  match rest with
  | none =>
    let _ ← outer.settle
    throw (.usage .missingCommand)
  | some (.help, rest) => throw (.page (← helpPage rest))
  | some (t, rest) =>
    let (inner, _) ← Reading.read { topic := t } false rest
    let inner ← inner.settle
    let command ← commandOf t inner.found
    let outer ← outer.settle
    return {
      config := inner.found.config <|> outer.found.config
      verbose := inner.found.verbose || outer.found.verbose
      command }

end Blockwork.CommandLine
