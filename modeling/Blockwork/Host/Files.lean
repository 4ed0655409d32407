import Blockwork.Host.Fault
import Blockwork.Text.Utf8

/-! # Files

A path is walked one name after the other, and each name is looked up in the directory that the walk
has reached. -/

namespace Blockwork

abbrev Files := String → Except HostFault Bytes

namespace Files

def holds (f : Files) (path : String) : Bool :=
  match f path with
  | .ok _ => true
  | .error .isDirectory => true
  | .error _ => false

def text (f : Files) (path : String) : Except HostFault String := do
  match Text.toString? (← f path) with
  | some s => return s
  | none => throw .notText

end Files

structure FileTree where
  here : List String
  files : List (List String × Bytes)
  /-- Directories beside those that lead to the files and to the working directory. -/
  directories : List (List String) := []

namespace FileTree

inductive Node where
  | file (b : Bytes)
  | directory
  deriving DecidableEq, Repr

def maxName : Nat := 255

def maxPath : Nat := 4095

def node? (t : FileTree) (place : List String) : Option Node :=
  match t.files.lookup place with
  | some b => some (.file b)
  | none =>
    if (t.here :: t.directories ++ t.files.map Prod.fst).any place.isPrefixOf then some .directory
    else none

/-- Go from a place to the name that stands next in a path. An empty name and `.` stay, and `..` goes
back; all of them need a directory to start from. -/
def enter (t : FileTree) (place : List String) (name : String) : Except HostFault (List String) :=
  match t.node? place with
  | some .directory =>
    if name = "" ∨ name = "." then .ok place
    else if name = ".." then .ok place.dropLast
    else if name.utf8ByteSize > maxName then .error .nameTooLong
    else if (t.node? (place ++ [name])).isSome then .ok (place ++ [name])
    else .error .missing
  | _ => .error .notDirectory

def locate (t : FileTree) (path : String) : Except HostFault (List String) :=
  if path = "" then .error .missing
  else if path.utf8ByteSize > maxPath then .error .nameTooLong
  else (path.splitOn "/").foldlM t.enter (if path.startsWith "/" then [] else t.here)

def read (t : FileTree) : Files := fun path => do
  match t.node? (← t.locate path) with
  | some (.file b) => return b
  | _ => throw .isDirectory

end FileTree

end Blockwork
