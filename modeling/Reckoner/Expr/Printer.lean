import Reckoner.Expr
import Reckoner.Number.Display

/-! # The text of an expression

`Expr.render` gives the text of a tree by recursion on the tree. Trees may be as deep as a source is
long, so `Expr.display` writes the same text from a stack of pieces that are still to be written; the
main statement is that the two agree.
-/
namespace Reckoner
set_option autoImplicit false

/-- Statements are joined by a semicolon and a space. -/
def Expr.statementMark : String := "; "

/-- Arguments and parameters are joined by a comma and a space. -/
def Expr.listMark : String := ", "

/-- Texts in order with a mark between every two of them. -/
def joinTexts (mark : String) : List String → String
  | [] => ""
  | [text] => text
  | text :: rest => text ++ mark ++ joinTexts mark rest

mutual
def Expr.render : Expr → String
  | .program body => joinTexts statementMark (renderAll body)
  | .name id => id
  | .number value => Number.render value
  | .text value => "\"" ++ value ++ "\""
  | .null => "null"
  | .binary op left right => "(" ++ left.render ++ " " ++ op.symbol ++ " " ++ right.render ++ ")"
  | .declare id value => "var " ++ id ++ " = " ++ value.render
  | .call callee arguments => callee.render ++ "(" ++ joinTexts listMark (renderAll arguments) ++ ")"
  | .unary op operand => "(" ++ op ++ operand.render ++ ")"
  | .function id parameters body =>
    "fn " ++ id ++ "(" ++ joinTexts listMark parameters ++ ") \x7b " ++
      joinTexts statementMark (renderAll body) ++ " \x7d"

def Expr.renderAll : List Expr → List String
  | [] => []
  | e :: rest => e.render :: renderAll rest
end

inductive Piece where
  | tree (e : Expr)
  | text (s : String)

namespace Piece

def join (mark : String) : List Piece → List Piece
  | [] => []
  | [piece] => [piece]
  | piece :: rest => piece :: text mark :: join mark rest

def ofExpr : Expr → List Piece
  | .program body => join Expr.statementMark (body.map tree)
  | .name id => [text id]
  | .number value => [text (Number.render value)]
  | .text value => [text "\"", text value, text "\""]
  | .null => [text "null"]
  | .binary op left right =>
    [text "(", tree left, text " ", text op.symbol, text " ", tree right, text ")"]
  | .declare id value => [text "var ", text id, text " = ", tree value]
  | .call callee arguments =>
    tree callee :: text "(" :: join Expr.listMark (arguments.map tree) ++ [text ")"]
  | .unary op operand => [text "(", text op, tree operand, text ")"]
  | .function id parameters body =>
    text "fn " :: text id :: text "(" :: join Expr.listMark (parameters.map text) ++
      text ") \x7b " :: join Expr.statementMark (body.map tree) ++ [text " \x7d"]

def weight : List Piece → Nat
  | [] => 0
  | tree e :: rest => e.size + weight rest
  | text _ :: rest => weight rest

@[simp] theorem weight_append (a b : List Piece) : weight (a ++ b) = weight a + weight b := by
  induction a with
  | nil => simp [weight]
  | cons piece a ih => cases piece <;> simp [weight, ih, Nat.add_assoc]

@[simp] theorem weight_join (mark : String) (pieces : List Piece) :
    weight (join mark pieces) = weight pieces := by
  induction pieces with
  | nil => rfl
  | cons piece rest ih =>
    cases rest with
    | nil => rfl
    | cons next rest => cases piece <;> simp [join, weight, ih]

@[simp] theorem weight_map_tree (body : List Expr) : weight (body.map tree) = Expr.sizeAll body := by
  induction body with
  | nil => simp [weight]
  | cons e body ih => simp [weight, ih]

@[simp] theorem weight_map_text (texts : List String) : weight (texts.map text) = 0 := by
  induction texts with
  | nil => rfl
  | cons s texts ih => simp [weight, ih]

theorem weight_ofExpr (e : Expr) : weight (ofExpr e) + 1 ≤ e.size := by
  cases e <;> simp [ofExpr, weight, Expr.size]

/-- Writes a stack of pieces behind a text, from the top of the stack down. -/
def write : List Piece → String → String
  | [], done => done
  | text s :: rest, done => write rest (done ++ s)
  | tree e :: rest, done => write (ofExpr e ++ rest) done
termination_by pieces => (weight pieces, pieces.length)
decreasing_by
  · right; simp
  · left
    have := weight_ofExpr e
    simp [weight]
    omega

def contents : List Piece → String
  | [] => ""
  | tree e :: rest => e.render ++ contents rest
  | text s :: rest => s ++ contents rest

@[simp] theorem contents_append (a b : List Piece) : contents (a ++ b) = contents a ++ contents b := by
  induction a with
  | nil => simp [contents]
  | cons piece a ih => cases piece <;> simp [contents, ih, String.append_assoc]

theorem contents_join (mark : String) (pieces : List Piece) :
    contents (join mark pieces) = joinTexts mark (pieces.map fun piece => contents [piece]) := by
  induction pieces with
  | nil => rfl
  | cons piece rest ih =>
    cases rest with
    | nil => rfl
    | cons next rest =>
      cases piece <;> simp only [join, contents, ih, List.map_cons, joinTexts, String.append_empty,
        String.append_assoc]

@[simp] theorem contents_join_tree (mark : String) (body : List Expr) :
    contents (join mark (body.map tree)) = joinTexts mark (Expr.renderAll body) := by
  rw [contents_join, List.map_map]
  congr 1
  induction body with
  | nil => simp [Expr.renderAll]
  | cons e body ih => simpa [Expr.renderAll, contents] using ih

@[simp] theorem contents_join_text (mark : String) (texts : List String) :
    contents (join mark (texts.map text)) = joinTexts mark texts := by
  rw [contents_join, List.map_map]
  congr 1
  induction texts with
  | nil => rfl
  | cons s texts ih => simpa [contents] using ih

theorem contents_ofExpr (e : Expr) : contents (ofExpr e) = e.render := by
  cases e <;> simp [ofExpr, contents, Expr.render, String.append_assoc]

theorem write_eq_append (pieces : List Piece) (done : String) :
    write pieces done = done ++ contents pieces := by
  fun_induction write pieces done with
  | case1 => simp [contents]
  | case2 => simp_all [contents, String.append_assoc]
  | case3 => simp_all [contents, contents_ofExpr]

end Piece

/-- The text of an expression, written piece by piece. -/
def Expr.display (e : Expr) : String := Piece.write [.tree e] ""

def Program.display (p : Program) : String :=
  Piece.write (Piece.join Expr.statementMark (p.body.map .tree)) ""

@[simp] theorem Expr.display_eq (e : Expr) : e.display = e.render := by
  simp [display, Piece.write_eq_append, Piece.contents]

theorem Expr.renderAll_eq_map (body : List Expr) : Expr.renderAll body = body.map Expr.display := by
  induction body with
  | nil => rw [renderAll, List.map_nil]
  | cons e body ih => rw [renderAll, List.map_cons, ih, display_eq]

@[simp] theorem Program.display_eq (p : Program) : p.display = p.toExpr.render := by
  simp [display, Piece.write_eq_append, toExpr, Expr.render]

end Reckoner
