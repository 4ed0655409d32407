import Blockwork.Host.Build
import Blockwork.JsonText.Token

/-! # Failures of the command

A failure says what could not be done, and then its causes, the nearest first. Several causes are
numbered. -/

namespace Blockwork.CommandLine

inductive LoadError where
  | read (e : HostFault)
  | config (e : Option ConfigFault)
  | program (e : JsonText.Fault)
  deriving DecidableEq, Repr

inductive Failure where
  | config (path : String) (e : LoadError)
  | program (path : String) (e : LoadError)
  | compile (e : CompileError)
  | build (e : BuildError)
  | start (e : HostFault)

def faultText : JsonText.Fault → String
  | .malformed => "malformed text"
  | .incomplete => "unexpected end of text"
  | .wrongShape => "unexpected shape"

def LoadError.causes (path : String) : LoadError → List String
  | read e => ["Failed to read " ++ path ++ ": " ++ e.message, e.message]
  | config (some e) => [e.message]
  | config none => ["Invalid configuration file: malformed text", "malformed text"]
  | program e => ["Invalid program file: " ++ faultText e, faultText e]

def buildCauses : BuildError → List String
  | .compile e => [e.describe]
  | .start e => ["Linking error: Failed to run linker: " ++ e.message]
  | .link complaint => ["Linking error: Linker failed: " ++ complaint]

namespace Failure

def headline : Failure → String
  | config path _ => "Failed to load configuration '" ++ path ++ "'"
  | program path _ => "Failed to load program '" ++ path ++ "'"
  | compile e => "Compile error: " ++ e.describe
  | build (.compile e) => "Compile error: " ++ e.describe
  | build _ => "Failed to build executable"
  | start e => "Failed to spawn execution thread: " ++ e.message

def causes : Failure → List String
  | config path e => e.causes path
  | program path e => e.causes path
  | compile _ => []
  | build (.compile _) => []
  | build e => buildCauses e
  | start e => [e.message]

def causeText (mark indent cause : String) : String :=
  mark ++ String.intercalate ("\n" ++ indent) (cause.splitOn "\n") ++ "\n"

def report (f : Failure) : String :=
  "Error: " ++ f.headline ++ "\n" ++
    match f.causes with
    | [] => ""
    | [c] => "\nCaused by:\n" ++ causeText "    " "    " c
    | cs => "\nCaused by:\n" ++ String.join (cs.zipIdx.map fun (c, i) =>
        causeText ("    " ++ toString i ++ ": ") "       " c)

end Failure

end Blockwork.CommandLine
