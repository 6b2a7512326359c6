import Reckoner.CommandLine

/-! # The program

Runs the command line on the real arguments, files and standard streams. A dialogue is answered line by
line as the input arrives.
-/
namespace Reckoner.Main
set_option autoImplicit false

def logVariable : String := "RUST_LOG"

def execute (threshold : Verbosity) (effect : Effect) : IO Unit := do
  let stdout ← IO.getStdout
  stdout.putStr (CommandLine.Terminal.outputText effect)
  stdout.flush
  (← IO.getStderr).putStr (CommandLine.Terminal.errorText threshold effect)

/-- The bytes of the next line, its newline included; none at the end of the input. -/
partial def readLine (input : IO.FS.Stream) (line : Array UInt8) : IO (List UInt8) := do
  match (← input.read 1).toList with
  | [] => return line.toList
  | byte :: _ =>
    let line := line.push byte
    if byte == 10 then return line.toList else readLine input line

partial def answerLines (threshold : Verbosity) (settings : Settings) (session : Session) :
    IO (Except Failure Unit) := do
  execute threshold (.print settings.prompt)
  let line ← readLine (← IO.getStdin) #[]
  if line.isEmpty then return .ok ()
  match Dialogue.turn line with
  | .finish result => return result
  | .answer source =>
    (Dialogue.answer session source).forM (execute threshold)
    answerLines threshold settings session

def dialogue (threshold : Verbosity) (settings : Settings) : IO (Except Failure Unit) := do
  execute threshold (.print (Dialogue.greeting ++ "\n"))
  answerLines threshold settings (.start settings.ast)

def faultOf : IO.Error → StreamFault
  | .noFileOrDirectory _ _ _ => .missing
  | .inappropriateType _ 21 _ => .folder
  | .inappropriateType _ _ _ => .notFolder
  | e => .other (toString e)

def script (threshold : Verbosity) (options : Options) (path : String) :
    IO (Except Failure Unit) := do
  let content ← try
      let bytes ← IO.FS.readBinFile path
      pure (.ok bytes.toList)
    catch e => pure (.error (faultOf e))
  let transcript := CommandLine.script options path content
  transcript.effects.forM (execute threshold)
  return transcript.result

def run (options : Options) : IO UInt32 := do
  let chosen := (← IO.getEnv logVariable).bind Verbosity.ofName?
  let threshold := options.threshold chosen
  let result ← match options.input with
    | some path => script threshold options path
    | none => dialogue threshold options.toSettings
  match result with
  | .ok _ => return 0
  | .error e =>
    (← IO.getStderr).putStr ("Error: " ++ e.message ++ "\n")
    return 1

end Reckoner.Main

def main (args : List String) : IO UInt32 := do
  match Reckoner.Options.read args with
  | .ok options => Reckoner.Main.run options
  | .error stop =>
    let terminal := Reckoner.CommandLine.Terminal.ofStop stop
    (← IO.getStdout).putStr terminal.stdout
    (← IO.getStderr).putStr terminal.stderr
    return terminal.exit.toUInt32
