import Reckoner.Value

/-! # Log events

What a run tells about itself. Each event has a level and the name of the part that it comes from;
a threshold lets through the events of its own level and of the more severe ones.
-/
namespace Reckoner
set_option autoImplicit false

/-- How much is told: the levels of events and the thresholds, from the quietest on. -/
inductive Verbosity where
  | off
  | error
  | warn
  | info
  | debug
  | trace
deriving DecidableEq, Repr, Inhabited

namespace Verbosity

def rank : Verbosity → Nat
  | off => 0
  | error => 1
  | warn => 2
  | info => 3
  | debug => 4
  | trace => 5

def label : Verbosity → String
  | off => "OFF"
  | error => "ERROR"
  | warn => "WARN"
  | info => "INFO"
  | debug => "DEBUG"
  | trace => "TRACE"

def ofName? (name : String) : Option Verbosity :=
  [off, error, warn, info, debug, trace].find? fun level => level.label == name.toUpper

def admits (threshold level : Verbosity) : Bool := decide (level.rank ≤ threshold.rank)

end Verbosity

inductive Event where
  | tokenized (count : Nat)
  | parsed (statements : Nat)
  | absorbed (op : Operator) (left right : Value)
  | evaluated (value : Value)
  | lineFailed (message : String)
deriving DecidableEq, Repr

namespace Event

def level : Event → Verbosity
  | tokenized _ | absorbed _ _ _ => .trace
  | parsed _ | evaluated _ | lineFailed _ => .debug

def target : Event → String
  | tokenized _ => "axle::interpreter::lexer"
  | parsed _ => "axle::interpreter::parser"
  | absorbed _ _ _ | evaluated _ => "axle::interpreter::evaluator"
  | lineFailed _ => "axle"

def message : Event → String
  | tokenized count => "tokenized source count=" ++ count.repr
  | parsed statements => "parsed program statements=" ++ statements.repr
  | absorbed op left right =>
    "non-numeric operand, result is null operator=" ++ op.symbol ++ " left=\"" ++ left.typeName ++
      "\" right=\"" ++ right.typeName ++ "\""
  | evaluated value => "evaluated program value=" ++ value.render
  | lineFailed message => "line failed error=" ++ message

def render (e : Event) : String := e.level.label ++ " " ++ e.target ++ ": " ++ e.message

end Event
end Reckoner
