import Blockwork.Compile.Program
import Blockwork.Config.Basic
import Blockwork.Host.Files
import Blockwork.Machine.Run

/-! # Built programs

A program that does not compile is refused before the linker is started. -/

namespace Blockwork

/-! ### Linkers -/

inductive Tool where
  /-- It links, given the runtime library. -/
  | linker
  /-- It ends without linking; what it complains about when it fails. -/
  | idle (complaint : Option String)
  deriving DecidableEq, Repr

structure Toolchain where
  start : Option String → Except HostFault Tool := fun _ => .error .missing
  runtimeDirs : List String := []

/-- Start a tool by its name. A name with a slash is a path, and what it leads to may be no tool; any
other name is looked for among the tools, where `.` and `..` are directories. -/
def FileTree.start (t : FileTree) (tools : List (String × Tool)) (name : String) : Except HostFault Tool :=
  match tools.lookup name with
  | some tool => .ok tool
  | none =>
    if name.contains '/' then do
      let _ ← t.locate name
      throw .denied
    else if name = "." ∨ name = ".." then .error .denied
    else if name.utf8ByteSize > FileTree.maxName then .error .nameTooLong
    else .error .missing

/-! ### Builds -/

inductive BuildError where
  | compile (e : CompileError)
  | start (e : HostFault)
  | link (complaint : String)

structure Executable where
  code : ProgramCode

namespace BuildConfig

def linkWords (c : BuildConfig) : List String :=
  c.linker.toList ++ c.runtimeDir :: c.extraFlags

def startLinker (c : BuildConfig) (t : Toolchain) : Except HostFault Tool :=
  if c.linkWords.any (·.contains '\x00') then .error .zeroByte else t.start c.linker

def link (c : BuildConfig) (t : Toolchain) (code : ProgramCode) :
    Except BuildError (Option Executable) := do
  match ← (c.startLinker t).mapError BuildError.start with
  | .idle none => return none
  | .idle (some complaint) => throw (.link complaint)
  | .linker =>
    if t.runtimeDirs.contains c.runtimeDir then return some ⟨code⟩
    else throw (.link ("no runtime library in " ++ c.runtimeDir))

def build (c : BuildConfig) (t : Toolchain) (p : Program) : Except BuildError (Option Executable) := do
  c.link t (← p.compile.result.mapError BuildError.compile)

end BuildConfig

def Executable.run (e : Executable) (columns lines : Option String) (input : Bytes := []) :
    Option Session :=
  e.code.run (Session.standalone columns lines input)

end Blockwork
