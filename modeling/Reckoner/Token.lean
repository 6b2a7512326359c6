import Reckoner.Operator
import Reckoner.Position

/-! # Tokens

A token is a word of a source text with its kind and the two positions it stands between. The text
`EndOfFile` belongs to the token that closes every source.
-/
namespace Reckoner
set_option autoImplicit false

inductive Token.Kind where
  | identifier
  | null
  | number
  | string
  | var
  | assign
  | operator
  | openParen
  | closeParen
  | endOfInput
deriving DecidableEq, Repr, Inhabited

def Token.Kind.describe : Token.Kind → String
  | identifier => "identifier"
  | null => "'null'"
  | number => "number"
  | string => "string"
  | var => "'var'"
  | assign => "'='"
  | operator => "operator"
  | openParen => "'('"
  | closeParen => "')'"
  | endOfInput => "end of input"

structure Token where
  kind : Token.Kind
  lexeme : String
  start : Position
  stop : Position
deriving DecidableEq, Repr, Inhabited

namespace Token

/-- The token that closes a source whose text ends at `p`. -/
def endAt (p : Position) : Token := ⟨.endOfInput, "EndOfFile", p, p⟩

def isEnd (t : Token) : Bool := t.kind == .endOfInput

@[simp] theorem isEnd_endAt (p : Position) : (endAt p).isEnd = true := rfl

def describe (t : Token) : String :=
  if t.isEnd then "end of input" else "`" ++ t.lexeme ++ "`"

/-- The operator that a token stands for; an operator token may spell none. -/
def operator? (t : Token) : Option Operator :=
  if t.kind = .operator then Operator.ofSymbol? t.lexeme else none

/-- The word class of a run of letters: two words are reserved. -/
def Kind.ofWord (word : List Char) : Kind :=
  if word = ['v', 'a', 'r'] then .var
  else if word = ['n', 'u', 'l', 'l'] then .null
  else .identifier

def Kind.ofMark? : Char → Option Kind
  | '(' => some .openParen
  | ')' => some .closeParen
  | '+' | '-' | '*' | '/' | '%' => some .operator
  | '=' => some .assign
  | _ => none

end Token
end Reckoner
