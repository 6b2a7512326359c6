import Reckoner.Evaluation
import Reckoner.Expr.Parser

/-! # Failures

A line fails because it does not parse or because it has no value. A run fails at a line of a file, or
because a stream or a file does not serve it.
-/
namespace Reckoner
set_option autoImplicit false

inductive LineError where
  | parse (error : ParseError)
  | eval (error : EvalError)
deriving DecidableEq, Repr

def LineError.message : LineError → String
  | parse error => error.message
  | eval error => error.message

/-- What can be wrong with a stream or a file: it takes no more bytes, its bytes are not text, it does
not exist, it is a folder, its path leads through something that is no folder, or what else the system
has to say. -/
inductive StreamFault where
  | full
  | notText
  | missing
  | folder
  | notFolder
  | other (description : String)
deriving DecidableEq, Repr

def StreamFault.message : StreamFault → String
  | full => "failed to write whole buffer"
  | notText => "stream did not contain valid UTF-8"
  | missing => "No such file or directory (os error 2)"
  | folder => "Is a directory (os error 21)"
  | notFolder => "Not a directory (os error 20)"
  | other description => description

inductive Failure where
  | line (error : LineError)
  | inFile (path : String) (number : Nat) (error : LineError)
  | stream (fault : StreamFault)
deriving DecidableEq, Repr

def Failure.message : Failure → String
  | line error => error.message
  | inFile path number error => "[" ++ path ++ ":" ++ number.repr ++ "] " ++ error.message
  | stream fault => "IO error: " ++ fault.message

end Reckoner
