import Reckoner.Expr
import Reckoner.Number.Decimal
import Reckoner.Token.Scanner

/-! # Parsing

A program is a sequence of sums without separators; a sum is products joined by additive operators, a
product is operands joined by multiplicative ones, both folded to the left, and an operand is a name,
`null`, a number or a sum in parentheses. The parser is a machine that takes one token at a time, with
one level of pending operations for each open parenthesis, so nesting costs no call depth.
-/
namespace Reckoner
set_option autoImplicit false

inductive ParseError where
  | scan (error : ScanError)
  | expected (kind : Token.Kind) (found : Token)
  | unexpected (found : Token)
  | malformedNumber (found : Token)
deriving DecidableEq, Repr

def ParseError.message : ParseError → String
  | scan error => error.message
  | expected kind found =>
    found.start.render ++ " Expected " ++ kind.describe ++ ", got " ++ found.describe
  | unexpected found =>
    found.start.render ++ " Unexpected token '" ++ found.lexeme ++ "' of type " ++
      found.kind.describe
  | malformedNumber found =>
    found.start.render ++ " Failed to parse number literal '" ++ found.lexeme ++ "'"

namespace Parser

/-- A left operand and the operator that waits for its right operand. -/
structure Pending where
  left : Expr
  op : Operator

/-- The operation that a pending one becomes with its right operand; without one, the operand. -/
def Pending.close : Option Pending → Expr → Expr
  | none, right => right
  | some ⟨left, op⟩, right => .binary op left right

/-- The operations that are open between two parentheses: at most one of each tier. -/
structure Level where
  sum : Option Pending := none
  product : Option Pending := none

namespace Level

def closeProduct (level : Level) (last : Expr) : Expr := Pending.close level.product last

def closeSum (level : Level) (last : Expr) : Expr :=
  Pending.close level.sum (level.closeProduct last)

def push (level : Level) (last : Expr) (op : Operator) : Level :=
  if op.isAdditive then { sum := some ⟨level.closeSum last, op⟩ }
  else { level with product := some ⟨level.closeProduct last, op⟩ }

end Level

/-- Where the parser stands: between statements, before an operand, behind an operand, or behind the
closing token. The levels outside the innermost open parenthesis are listed from the inside out. -/
inductive Place where
  | between
  | before (level : Level) (outer : List Level)
  | behind (last : Expr) (level : Level) (outer : List Level)
  | closed

/-- The finished statements, newest first, and the place. -/
structure State where
  done : List Expr := []
  place : Place := .between

def operand (t : Token) (level : Level) (outer : List Level) : Except ParseError Place :=
  match t.kind with
  | .identifier => .ok (.behind (.name t.lexeme) level outer)
  | .null => .ok (.behind .null level outer)
  | .number =>
    match Number.read? t.lexeme with
    | some value => .ok (.behind (.number value) level outer)
    | none => .error (.malformedNumber t)
  | .openParen => .ok (.before {} (level :: outer))
  | _ => .error (.unexpected t)

/-- Reads a token between statements: the closing token, or the first one of a statement. -/
def State.begin (done : List Expr) (t : Token) : Except ParseError State :=
  if t.isEnd then .ok ⟨done, .closed⟩ else (operand t {} []).map (State.mk done)

def State.step (s : State) (t : Token) : Except ParseError State :=
  match s.place with
  | .between => State.begin s.done t
  | .before level outer => (operand t level outer).map (State.mk s.done)
  | .behind last level outer =>
    match t.operator? with
    | some op => .ok { s with place := .before (level.push last op) outer }
    | none =>
      match outer with
      | [] => State.begin (level.closeSum last :: s.done) t
      | level' :: outer' =>
        if t.kind = .closeParen then .ok { s with place := .behind (level.closeSum last) level' outer' }
        else .error (.expected .closeParen t)
  | .closed => .error (.expected .endOfInput t)

/-- Reads tokens in order up to the first one that does not fit. -/
def State.run : List Token → State → Except ParseError State
  | [], s => .ok s
  | t :: rest, s =>
    match s.step t with
    | .error e => .error e
    | .ok s' => State.run rest s'

@[simp] theorem State.run_nil (s : State) : State.run [] s = .ok s := rfl

theorem State.run_cons (t : Token) (rest : List Token) (s : State) :
    State.run (t :: rest) s = (s.step t).bind (State.run rest) := by
  rw [run]
  cases s.step t <;> rfl

theorem State.run_append (a b : List Token) (s : State) :
    State.run (a ++ b) s = (State.run a s).bind (State.run b) := by
  induction a generalizing s with
  | nil => rfl
  | cons t a ih =>
    rw [List.cons_append, run_cons, run_cons]
    cases s.step t with
    | error e => rfl
    | ok s' => exact ih s'

def endOf (tokens : List Token) : Position := (tokens.getLast?.map Token.stop).getD .first

/-- The tokens with a closing one behind them, unless the last one closes them already. -/
def terminated (tokens : List Token) : List Token :=
  if tokens.getLast?.any Token.isEnd then tokens else tokens ++ [.endAt (endOf tokens)]

end Parser

def Program.ofTokens (tokens : List Token) : Except ParseError Program :=
  (Parser.State.run (Parser.terminated tokens) {}).map fun s => ⟨s.done.reverse⟩

def Program.parse (source : String) : Except ParseError Program :=
  match tokenize source with
  | .error e => .error (.scan e)
  | .ok tokens => ofTokens tokens

end Reckoner
