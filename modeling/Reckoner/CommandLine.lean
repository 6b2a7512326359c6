import Reckoner.CommandLine.Folder
import Reckoner.CommandLine.Options
import Reckoner.Session.Dialogue
import Reckoner.Session.Script

/-! # The command line

A run of the program: the options decide between a script and a dialogue, the transcript is shown on
two outputs, and the exit status tells how it ended. Log events that the threshold admits share the
error output with the messages, in the order in which they arise.
-/
namespace Reckoner.CommandLine
set_option autoImplicit false

def version : String := "axle 0.1.0"

def help : String :=
  "Usage: axle [OPTIONS] [INPUT]\n\n" ++
  "Arguments:\n" ++
  "  [INPUT]  Source file to evaluate line by line; starts the prompt when omitted\n\n" ++
  "Options:\n" ++
  "      --ast              Print the parsed tree before each result\n" ++
  "      --prompt <PROMPT>  Prompt shown before each line [default: > ]\n" ++
  "  -v, --verbose          Print verbose log output\n" ++
  "  -h, --help             Print help\n" ++
  "  -V, --version          Print version\n"

def usage : Options.Stop → String
  | .help => help
  | .version => version ++ "\n"
  | .unknownArgument => "error: unexpected argument found\n"
  | .repeated => "error: an argument cannot be used multiple times\n"
  | .invalidValue => "error: a value is required but none was supplied\n"
  | .unneededValue => "error: unexpected value for an argument\n"

structure Terminal where
  stdout : String := ""
  stderr : String := ""
  exit : Nat := 0
deriving DecidableEq, Repr

namespace Terminal

def errorText (threshold : Verbosity) : Effect → String
  | .complain text => text
  | .record event => if threshold.admits event.level then event.render ++ "\n" else ""
  | .print _ | .consume _ => ""

def outputText : Effect → String
  | .print text => text
  | .complain _ | .record _ | .consume _ => ""

def ofTranscript (threshold : Verbosity) (t : Transcript Failure Unit) : Terminal :=
  let stdout := t.effects.foldl (fun shown effect => shown ++ outputText effect) ""
  let stderr := t.effects.foldl (fun shown effect => shown ++ errorText threshold effect) ""
  match t.result with
  | .ok _ => { stdout, stderr }
  | .error e => { stdout, stderr := stderr ++ "Error: " ++ e.message ++ "\n", exit := 1 }

def ofStop : Options.Stop → Terminal
  | .help => { stdout := usage .help }
  | .version => { stdout := usage .version }
  | stop => { stderr := usage stop, exit := 2 }

end Terminal

/-- The run of the script at a path whose content has been read. -/
def script (options : Options) (path : String) :
    Except StreamFault (List UInt8) → Transcript Failure Unit
  | .error fault => ⟨#[], .error (.stream fault)⟩
  | .ok content =>
    match String.fromUTF8? ⟨content.toArray⟩ with
    | none => ⟨#[], .error (.stream .notText)⟩
    | some source => Script.run options.toSettings path source

/-- The run of the program on given arguments, files, standard input and log threshold. -/
def run (args : List String) (folder : Folder) (stdin : List UInt8) (chosen : Option Verbosity) :
    Terminal :=
  match Options.read args with
  | .error stop => .ofStop stop
  | .ok options =>
    .ofTranscript (options.threshold chosen) <|
      match options.input with
      | some path => script options path (folder.read path)
      | none => Dialogue.run options.toSettings stdin

end Reckoner.CommandLine
