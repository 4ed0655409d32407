import Blockwork.Text.Utf8

/-! # Pages of the command line

What the command says about itself and about each of its subcommands. -/

namespace Blockwork.CommandLine

inductive Topic where
  | command
  | run
  | build
  | check
  | help
  deriving DecidableEq, Repr

inductive Page where
  | version
  | help (topic : Topic)
  deriving DecidableEq, Repr

def commandName : String := "scrap"

def versionLine : String := commandName ++ " 0.5.0\n"

namespace Topic

def word : Topic → String
  | command => commandName
  | run => "run"
  | build => "build"
  | check => "check"
  | help => "help"

def subcommands : List Topic := [run, build, check, help]

def ofWord? (s : String) : Option Topic :=
  subcommands.find? fun t => t.word == s

def about : Topic → String
  | command => "Compile and run Scrap block programs"
  | run => "Compile a program in memory and run it"
  | build => "Build a program into a standalone executable"
  | check => "Check that a program compiles without running it"
  | help => "Print this message or the help of the given subcommand(s)"

def usage : Topic → String
  | command => commandName ++ " [OPTIONS] <COMMAND>"
  | help => commandName ++ " help [COMMAND]..."
  | t => commandName ++ " " ++ t.word ++ " [OPTIONS] <FILE>"

def operands : Topic → List (String × String)
  | command => []
  | help => [("[COMMAND]...", "Print help for the subcommand(s)")]
  | _ => [("<FILE>", "Path to the program file (JSON)")]

def ownOptions : Topic → List (String × String)
  | run => [("    --seed <SEED>", "Seed for the `random` block")]
  | build =>
    [("-o, --output <OUTPUT>", "Output executable path"),
     ("    --release", "Pass -O2 to the C compiler driver")]
  | _ => []

def options (t : Topic) : List (String × String) :=
  if t = help then []
  else
    [("    --config <CONFIG>", "Configuration file (defaults to ./scrap.toml when present)")] ++
      t.ownOptions ++
      [("-v, --verbose", "Log compiler and runtime activity to stderr"), ("-h, --help", "Print help")] ++
      (if t = command then [("-V, --version", "Print version")] else [])

end Topic

def columns (rows : List (String × String)) : String :=
  let width := rows.foldl (fun w r => max w r.1.length) 0
  String.join (rows.map fun r =>
    "  " ++ r.1 ++ String.ofList (List.replicate (width - r.1.length) ' ') ++ "  " ++ r.2 ++ "\n")

def pagePart (title : String) (rows : List (String × String)) : String :=
  if rows.isEmpty then "" else "\n" ++ title ++ ":\n" ++ columns rows

def Page.text : Page → String
  | version => versionLine
  | help t =>
    t.about ++ "\n\nUsage: " ++ t.usage ++ "\n" ++
      (if t = .command then pagePart "Commands" (Topic.subcommands.map fun s => (s.word, s.about))
        else "") ++
      pagePart "Arguments" t.operands ++ pagePart "Options" t.options

end Blockwork.CommandLine
