import Blockwork.CommandLine.Arguments
import Blockwork.CommandLine.Failure
import Blockwork.Host.Launch
import Blockwork.Program.Reader

/-! # Carrying out a command

The configuration is loaded first, then the program; then the program is compiled and, for a run, run
to its end. -/

namespace Blockwork.CommandLine

structure Host where
  files : Files
  input : Bytes := []
  runtimeDir : Option String := none
  toolchain : Toolchain := {}
  clock : Int64 := 1700000000
  entropy : UInt64 := 0x9E3779B97F4A7C15

structure Outcome where
  code : Nat
  stdout : Bytes := []
  stderr : String := ""
  deriving DecidableEq, Repr

def usageCode : Nat := 2

def defaultConfig : String := "scrap.toml"

/-! ### Loading -/

def readConfig (h : Host) (path : String) : Except LoadError Config :=
  match h.files.text path with
  | .error e => .error (.read e)
  | .ok text =>
    match Config.ofToml text with
    | none => .error (.config none)
    | some c =>
      let c := c.withEnvironment h.runtimeDir
      match c.fault? with
      | some e => .error (.config (some e))
      | none => .ok c

def loadConfig (h : Host) (named : Option String) : Except Failure Config :=
  match named with
  | some path => (readConfig h path).mapError (Failure.config path)
  | none =>
    if h.files.holds defaultConfig then
      (readConfig h defaultConfig).mapError (Failure.config defaultConfig)
    else .ok (({} : Config).withEnvironment h.runtimeDir)

def loadProgram (h : Host) (path : String) : Except Failure Program :=
  match h.files.text path with
  | .error e => .error (.program path (.read e))
  | .ok text => (Program.ofJson text).mapError fun e => .program path (.program e)

def compile (p : Program) : Except Failure ProgramCode :=
  p.compile.result.mapError Failure.compile

/-! ### Commands -/

def runOutcome (s : Session) : Outcome :=
  let stdout := s.terminal.sink.written.toList
  match s.result with
  | .success => { code := 0, stdout }
  | .failure e => { code := 1, stdout, stderr := "Runtime error: " ++ e.message ++ "\n" }
  | .stopped => { code := 1, stdout, stderr := "Program stopped\n" }

def stem (name : String) : String :=
  let cs := name.toList
  let ending := (cs.reverse.takeWhile (· != '.')).length + 1
  if ending < cs.length then String.ofList (cs.take (cs.length - ending)) else name

/-- Path of the executable that is built from a program file: the stem of the file beside it. Empty
names and `.` right before the file are left out, unless the path starts with them. -/
def executablePath (path : String) : String :=
  match (path.splitOn "/").reverse with
  | [] => path
  | name :: dirs =>
    match dirs.reverse with
    | [] => stem name
    | first :: inner =>
      let inner := (inner.reverse.dropWhile fun c => c == "" || c == ".").reverse
      String.intercalate "/" (first :: inner ++ [stem name])

def Host.session (h : Host) (c : Config) (seed : Option UInt64) : Session :=
  { c.session h.input with clock := h.clock, entropy := seed.getD h.entropy }

def said (s : String) : Outcome := { code := 0, stdout := Text.ofString s }

def Command.perform (h : Host) (c : Config) : Command → Except Failure (Option Outcome)
  | run file seed => do
    let code ← compile (← loadProgram h file)
    let last ← (c.launch code (h.session c seed)).mapError Failure.start
    return last.map runOutcome
  | build file output release => do
    let p ← loadProgram h file
    let settings := { c.build with optimize := c.build.optimize || release }
    let _ ← (settings.build h.toolchain p).mapError Failure.build
    return some (said ("Built executable: " ++ output.getD (executablePath file) ++ "\n"))
  | check file => do
    let _ ← compile (← loadProgram h file)
    return some (said (file ++ ": ok\n"))

def Invocation.perform (h : Host) (i : Invocation) : Option Outcome :=
  match loadConfig h i.config >>= fun c => i.command.perform h c with
  | .ok o => o
  | .error f => some { code := 1, stderr := f.report }

/-! ### Command lines -/

def UsageError.message : UsageError → String
  | unknown a => "error: unexpected argument '" ++ a ++ "' found\n"
  | missingValue => "error: a value is required but none was supplied\n"
  | unexpectedValue a => "error: unexpected value for '" ++ a ++ "' found\n"
  | repeated => "error: an argument cannot be used multiple times\n"
  | badValue v => "error: invalid value '" ++ v ++ "'\n"
  | missingFile => "error: the required argument <FILE> was not provided\n"
  | missingCommand => "error: a subcommand is required but one was not provided\n"
  | empty => (Page.help .command).text

def Interrupt.outcome : Interrupt → Outcome
  | page p => said p.text
  | usage e => { code := usageCode, stderr := e.message }

def execute (h : Host) (args : List String) : Option Outcome :=
  match parse args with
  | .error e => some e.outcome
  | .ok i => i.perform h

def Invocation.paths (i : Invocation) : List String :=
  let file :=
    match i.command with
    | .run file _ => file
    | .build file _ _ => file
    | .check file => file
  [i.config.getD defaultConfig, file]

end Blockwork.CommandLine
