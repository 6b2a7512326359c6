/-! # Positions in a text

A position is a line and a column, both counted from one; a newline starts the next line and every
other character takes one column. The counters are 32-bit words.
-/
namespace Reckoner
set_option autoImplicit false

structure Position where
  line : Int32 := 1
  column : Int32 := 1
deriving DecidableEq, Repr, Inhabited

namespace Position

def first : Position := {}

def advance (p : Position) (c : Char) : Position :=
  if c = '\n' then ⟨p.line + 1, 1⟩ else ⟨p.line, p.column + 1⟩

def after (p : Position) (text : List Char) : Position := text.foldl advance p

@[simp] theorem after_nil (p : Position) : p.after [] = p := rfl

@[simp] theorem after_cons (p : Position) (c : Char) (text : List Char) :
    p.after (c :: text) = (p.advance c).after text := rfl

theorem after_append (p : Position) (a b : List Char) : p.after (a ++ b) = (p.after a).after b := by
  simp [after, List.foldl_append]

def render (p : Position) : String :=
  "[line " ++ p.line.toInt.repr ++ " column " ++ p.column.toInt.repr ++ "]"

end Position
end Reckoner
