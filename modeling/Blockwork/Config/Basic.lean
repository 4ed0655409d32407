import Blockwork.Host.Standalone
import Blockwork.Toml.Document
import Blockwork.Toml.Writer

/-! # Configuration
A configuration file may leave out any setting, which then has its default. A setting of the wrong
type makes the file unreadable, and unknown settings are ignored. -/

namespace Blockwork

structure MemoryConfig where
  minMemory : Nat := defaultMinMemory
  maxMemory : Nat := defaultMaxMemory
  deriving DecidableEq, Repr, Inhabited

structure ExecConfig where
  stackSize : Nat := 67108864
  columns : Int64 := ({} : TermSize).columns
  rows : Int64 := ({} : TermSize).rows
  deriving DecidableEq, Repr, Inhabited

structure BuildConfig where
  runtimeDir : String := "target/release"
  linker : Option String := none
  extraFlags : List String := []
  optimize : Bool := false
  deriving DecidableEq, Repr, Inhabited

structure Config where
  memory : MemoryConfig := {}
  exec : ExecConfig := {}
  build : BuildConfig := {}
  deriving DecidableEq, Repr, Inhabited

inductive ConfigFault where
  | zeroMinMemory
  | minExceedsMax (min max : Nat)
  | zeroStack
  | terminalSize
  deriving DecidableEq, Repr

def ConfigFault.message (f : ConfigFault) : String :=
  "Invalid configuration: " ++
    match f with
    | zeroMinMemory => "gc.min_memory must be positive"
    | minExceedsMax low high =>
      "gc.min_memory (" ++ toString low ++ ") exceeds gc.max_memory (" ++ toString high ++ ")"
    | zeroStack => "exec.stack_size must be positive"
    | terminalSize => "exec terminal size must be positive"

/-! ### Reading settings -/

namespace Setting

def size? : Toml.Value → Option Nat
  | .integer v => if v.toInt < 0 then none else some v.toInt.toNat
  | _ => none

def integer? : Toml.Value → Option Int64
  | .integer v => some v
  | _ => none

def text? : Toml.Value → Option String
  | .text s => some s
  | _ => none

def bool? : Toml.Value → Option Bool
  | .bool b => some b
  | _ => none

def texts? : Toml.Value → Option (List String)
  | .list items => items.mapM text?
  | _ => none

/-- Settings of one section: by name, or in the order of the section's fields. -/
inductive Section where
  | named (entries : List (String × Toml.Value))
  | ordered (items : List Toml.Value)

/-- Settings that a value holds. A moment holds none. -/
def section? : Toml.Value → Option Section
  | .table entries => some (.named entries)
  | .list items => some (.ordered items)
  | .moment => some (.named [])
  | _ => none

def get {α : Type} (s : Section) (name : String) (place : Nat) (decode : Toml.Value → Option α)
    (default : α) : Option α :=
  let found :=
    match s with
    | .named entries => entries.lookup name
    | .ordered items => items[place]?
  match found with
  | some v => decode v
  | none => some default

end Setting

open Setting in
def MemoryConfig.ofSection (s : Section) : Option MemoryConfig := do
  let d : MemoryConfig := {}
  return {
    minMemory := ← get s "min_memory" 0 size? d.minMemory
    maxMemory := ← get s "max_memory" 1 size? d.maxMemory }

open Setting in
def ExecConfig.ofSection (s : Section) : Option ExecConfig := do
  let d : ExecConfig := {}
  return {
    stackSize := ← get s "stack_size" 0 size? d.stackSize
    columns := ← get s "term_columns" 1 integer? d.columns
    rows := ← get s "term_rows" 2 integer? d.rows }

open Setting in
def BuildConfig.ofSection (s : Section) : Option BuildConfig := do
  let d : BuildConfig := {}
  return {
    runtimeDir := ← get s "runtime_dir" 0 text? d.runtimeDir
    linker := ← get s "linker" 1 (fun v => (text? v).map some) d.linker
    extraFlags := ← get s "extra_flags" 2 texts? d.extraFlags
    optimize := ← get s "optimize" 3 bool? d.optimize }

namespace Config

open Setting in
def sectionOf {α : Type} (entries : List (String × Toml.Value)) (name : String)
    (decode : Section → Option α) (default : α) : Option α :=
  match entries.lookup name with
  | some v => (section? v).bind decode
  | none => some default

def ofToml (text : String) : Option Config := do
  let entries ← Toml.parse text
  return {
    memory := ← sectionOf entries "gc" MemoryConfig.ofSection {}
    exec := ← sectionOf entries "exec" ExecConfig.ofSection {}
    build := ← sectionOf entries "build" BuildConfig.ofSection {} }

/-- The environment may name another directory of the runtime; an empty name counts as none. -/
def withEnvironment (c : Config) (runtimeDir : Option String) : Config :=
  match runtimeDir with
  | some dir => if dir == "" then c else { c with build := { c.build with runtimeDir := dir } }
  | none => c

def fault? (c : Config) : Option ConfigFault :=
  if c.memory.minMemory = 0 then some .zeroMinMemory
  else if c.memory.minMemory > c.memory.maxMemory then
    some (.minExceedsMax c.memory.minMemory c.memory.maxMemory)
  else if c.exec.stackSize = 0 then some .zeroStack
  else if c.exec.columns.toInt ≤ 0 || c.exec.rows.toInt ≤ 0 then some .terminalSize
  else none

def termSize (c : Config) : TermSize := ⟨c.exec.columns, c.exec.rows⟩

def session (c : Config) (input : Bytes := []) : Session :=
  { memory := Memory.new c.memory.minMemory c.memory.maxMemory
    terminal := { size := c.termSize }
    input }

def settingLine (name value : String) : String :=
  name ++ " = " ++ value ++ "\n"

def toToml (c : Config) : String :=
  "[gc]\n" ++ settingLine "min_memory" (toString c.memory.minMemory) ++
    settingLine "max_memory" (toString c.memory.maxMemory) ++
    "\n[exec]\n" ++ settingLine "stack_size" (toString c.exec.stackSize) ++
    settingLine "term_columns" (toString c.exec.columns.toInt) ++
    settingLine "term_rows" (toString c.exec.rows.toInt) ++
    "\n[build]\n" ++ settingLine "runtime_dir" (Toml.quote c.build.runtimeDir) ++
    (match c.build.linker with
      | some linker => settingLine "linker" (Toml.quote linker)
      | none => "") ++
    settingLine "extra_flags" (Toml.quoteList c.build.extraFlags) ++
    settingLine "optimize" (if c.build.optimize then "true" else "false")

end Config

end Blockwork
