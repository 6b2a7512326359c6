import Reckoner.Session

/-! # Command-line options

Arguments are read from left to right. A flag acts when it is met. A value that stands in an argument
of its own, the path or the text of the prompt, is kept back until the next argument that is accepted,
and only then checked; an argument that nothing accepts is therefore reported before a fault in the
value before it.
-/
namespace Reckoner
set_option autoImplicit false

structure Options extends Settings where
  input : Option String := none
  verbose : Bool := false
deriving DecidableEq, Repr

namespace Options

/-- Why the arguments give no options: help or the version is asked for, or they are not accepted. -/
inductive Stop where
  | help
  | version
  | unknownArgument
  | repeated
  | invalidValue
  | unneededValue
deriving DecidableEq, Repr

/-- A value that is kept back. The prompt's value may still be to come. -/
inductive Held where
  | nothing
  | path (text : String)
  | prompt (text : Option String)
deriving DecidableEq, Repr

/-- The options so far, the value that is kept back, whether a prompt and a path have been given, and
whether only paths may follow. -/
structure Reading where
  options : Options := {}
  held : Held := .nothing
  promptGiven : Bool := false
  pathGiven : Bool := false
  onlyPaths : Bool := false

namespace Reading

def setPrompt (r : Reading) (text : String) : Except Stop Reading :=
  if r.promptGiven then .error .repeated
  else .ok { r with options := { r.options with prompt := text }, promptGiven := true }

/-- Checks the value that is kept back and takes it over. A path is never empty. -/
def settle (r : Reading) : Except Stop Reading :=
  let free := { r with held := .nothing }
  match r.held with
  | .nothing => .ok free
  | .path text =>
    if text.isEmpty then .error .invalidValue
    else .ok { free with options := { r.options with input := some text } }
  | .prompt none => .error .invalidValue
  | .prompt (some text) => free.setPrompt text

inductive Flag where
  | ast
  | verbose
  | help
  | version
deriving DecidableEq, Repr

def Flag.ofLetter? : Char → Option Flag
  | 'v' => some .verbose
  | 'h' => some .help
  | 'V' => some .version
  | _ => none

def Flag.ofName? (name : String) : Option Flag :=
  if name = "ast" then some .ast
  else if name = "verbose" then some .verbose
  else if name = "help" then some .help
  else if name = "version" then some .version
  else none

/-- A flag is set once; asking for help or the version ends the reading. -/
def setFlag (r : Reading) (flag : Flag) : Except Stop Reading := do
  let r ← r.settle
  match flag with
  | .help => .error .help
  | .version => .error .version
  | .ast =>
    if r.options.ast then .error .repeated
    else .ok { r with options := { r.options with ast := true } }
  | .verbose =>
    if r.options.verbose then .error .repeated
    else .ok { r with options := { r.options with verbose := true } }

/-- Reads the letters of an argument such as `-v`. -/
def letters (r : Reading) : List Char → Except Stop Reading
  | [] => .ok r
  | c :: rest =>
    match Flag.ofLetter? c with
    | none => .error .unknownArgument
    | some flag => do letters (← r.setFlag flag) rest

/-- Reads an argument such as `--ast` or `--prompt=text`, given without its dashes. -/
def named (r : Reading) (text : List Char) : Except Stop Reading :=
  let name := String.ofList (text.takeWhile (· != '='))
  let attached := text.dropWhile (· != '=')
  if name = "prompt" then do
    let r ← r.settle
    match attached with
    | [] => .ok { r with held := .prompt none }
    | _ :: value => r.setPrompt (String.ofList value)
  else
    match Flag.ofName? name with
    | none => .error .unknownArgument
    | some flag => if attached.isEmpty then r.setFlag flag else .error .unneededValue

/-- Reads an argument that is no option: the text of the prompt if one is due, and a path
otherwise. -/
def value (r : Reading) (text : String) : Except Stop Reading :=
  if r.held = .prompt none ∧ r.onlyPaths = false then .ok { r with held := .prompt (some text) }
  else if r.pathGiven then .error .unknownArgument
  else do
    let r ← r.settle
    .ok { r with held := .path text, pathGiven := true }

def argument (r : Reading) (text : String) : Except Stop Reading :=
  if r.onlyPaths then r.value text
  else
    match text.toList with
    | ['-', '-'] => .ok { r with onlyPaths := true }
    | '-' :: '-' :: rest => r.named rest
    | '-' :: c :: rest => r.letters (c :: rest)
    | _ => r.value text

def arguments (r : Reading) : List String → Except Stop Reading
  | [] => r.settle
  | text :: rest => do arguments (← r.argument text) rest

end Reading

def read (args : List String) : Except Stop Options := do
  let r ← Reading.arguments {} args
  return r.options

/-- The log threshold: the environment's choice, and else what the options ask for. -/
def threshold (options : Options) (chosen : Option Verbosity) : Verbosity :=
  chosen.getD (if options.verbose then .debug else .warn)

end Options
end Reckoner
