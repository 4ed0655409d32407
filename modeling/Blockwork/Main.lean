import Blockwork.CommandLine.Execute
import Std.Time.DateTime.Timestamp

/-! # The command

Reads what a command line needs, carries it out, and writes what it leaves behind. -/

open Blockwork
open Blockwork.CommandLine

def readPath (path : String) : IO (Except HostFault Bytes) := do
  try
    return .ok (← IO.FS.readBinFile path).toList
  catch e =>
    match e with
    | .noFileOrDirectory .. => return .error .missing
    | e => return .error (.other (toString e))

partial def readAll (input : IO.FS.Stream) (sofar : ByteArray) : IO ByteArray := do
  let chunk ← input.read 65536
  if chunk.isEmpty then return sofar else readAll input (sofar ++ chunk)

def surroundings (i : Invocation) : IO Host := do
  let contents ← i.paths.mapM fun p => return (p, ← readPath p)
  let input ←
    match i.command with
    | .run .. => pure (← readAll (← IO.getStdin) .empty).toList
    | _ => pure []
  let noise ← IO.getRandomBytes 8
  return {
    files := fun path => (contents.lookup path).getD (.error .missing)
    input
    runtimeDir := ← IO.getEnv "SCRAP_RUNTIME_DIR"
    clock := Int64.ofInt (← Std.Time.Timestamp.now).toSecondsSinceUnixEpoch.val
    entropy := noise.toList.foldl (fun n b => n * 256 + b.toUInt64) 0 }

def Blockwork.CommandLine.Outcome.leave (o : Outcome) : IO UInt32 := do
  let stdout ← IO.getStdout
  stdout.write (ByteArray.mk o.stdout.toArray)
  stdout.flush
  (← IO.getStderr).putStr o.stderr
  return UInt32.ofNat o.code

def main (args : List String) : IO UInt32 := do
  match parse args with
  | .error e => e.outcome.leave
  | .ok i =>
    match i.perform (← surroundings i) with
    | some o => o.leave
    | none => return 1
