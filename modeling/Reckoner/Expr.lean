import Reckoner.Operator

/-! # Expressions

The trees that sources denote. A source gives names, numbers, `null` and binary operations; the other
forms are reserved, which means that they can be built and written but have no value yet.
-/
namespace Reckoner
set_option autoImplicit false

inductive Expr where
  | program (body : List Expr)
  | name (id : String)
  | number (value : Float)
  | text (value : String)
  | null
  | binary (op : Operator) (left right : Expr)
  | declare (id : String) (value : Expr)
  | call (callee : Expr) (arguments : List Expr)
  | unary (op : String) (operand : Expr)
  | function (id : String) (parameters : List String) (body : List Expr)
deriving Inhabited

structure Program where
  body : List Expr
deriving Inhabited

def Program.toExpr (p : Program) : Expr := .program p.body

namespace Expr

/-- The name of a form, as messages give it. -/
def kind : Expr → String
  | program _ => "Program"
  | name _ => "Identifier"
  | number _ => "NumericLiteral"
  | text _ => "StringLiteral"
  | null => "NullLiteral"
  | binary _ _ _ => "BinaryExpression"
  | declare _ _ => "VariableAssignment"
  | call _ _ => "CallExpression"
  | unary _ _ => "UnaryExpression"
  | function _ _ _ => "FunctionDeclaration"

def children : Expr → List Expr
  | program body => body
  | binary _ left right => [left, right]
  | declare _ value => [value]
  | call callee arguments => callee :: arguments
  | unary _ operand => [operand]
  | function _ _ body => body
  | name _ | number _ | text _ | null => []

mutual
def size : Expr → Nat
  | program body => sizeAll body + 1
  | name _ | number _ | text _ | null => 1
  | binary _ left right => left.size + right.size + 1
  | declare _ value => value.size + 1
  | call callee arguments => callee.size + sizeAll arguments + 1
  | unary _ operand => operand.size + 1
  | function _ _ body => sizeAll body + 1

def sizeAll : List Expr → Nat
  | [] => 0
  | e :: rest => e.size + sizeAll rest
end

@[simp] theorem sizeAll_nil : sizeAll [] = 0 := by rw [sizeAll]

@[simp] theorem sizeAll_cons (e : Expr) (rest : List Expr) :
    sizeAll (e :: rest) = e.size + sizeAll rest := by rw [sizeAll]

@[simp] theorem sizeAll_append (a b : List Expr) : sizeAll (a ++ b) = sizeAll a + sizeAll b := by
  induction a with
  | nil => simp
  | cons e a ih => simp [ih, Nat.add_assoc]

theorem size_eq (e : Expr) : e.size = sizeAll e.children + 1 := by
  cases e <;> simp [size, children]

/-- The expressions of a list of trees, each before its subexpressions, appended to those already
listed. -/
def preorderFrom : List Expr → Array Expr → Array Expr
  | [], done => done
  | e :: rest, done => preorderFrom (e.children ++ rest) (done.push e)
termination_by pending => sizeAll pending
decreasing_by simp [size_eq]

theorem preorderFrom_append (pending : List Expr) (done : Array Expr) :
    preorderFrom pending done = done ++ preorderFrom pending #[] := by
  match pending with
  | [] => simp [preorderFrom]
  | e :: rest =>
    rw [preorderFrom, preorderFrom, preorderFrom_append _ (done.push e),
      preorderFrom_append _ (#[].push e)]
    simp
termination_by sizeAll pending
decreasing_by all_goals simp [size_eq]

/-- The expressions of a tree, each before its subexpressions, from left to right. -/
def preorder (e : Expr) : Array Expr := preorderFrom [e] #[]

theorem preorderFrom_list_append (a b : List Expr) :
    preorderFrom (a ++ b) #[] = preorderFrom a #[] ++ preorderFrom b #[] := by
  match a with
  | [] => simp [preorderFrom]
  | e :: rest =>
    have ih := preorderFrom_list_append (e.children ++ rest) b
    rw [List.append_assoc] at ih
    rw [List.cons_append, preorderFrom, preorderFrom, preorderFrom_append _ (#[].push e),
      preorderFrom_append (e.children ++ rest) (#[].push e), ih, Array.append_assoc]
termination_by sizeAll a
decreasing_by simp [size_eq]

theorem mem_preorderFrom {x : Expr} {es : List Expr} :
    x ∈ preorderFrom es #[] ↔ ∃ e ∈ es, x ∈ e.preorder := by
  induction es with
  | nil => simp [preorderFrom]
  | cons e es ih =>
    rw [← List.singleton_append, preorderFrom_list_append, Array.mem_append, ih]
    simp [preorder]

theorem mem_preorder {x e : Expr} :
    x ∈ e.preorder ↔ x = e ∨ ∃ child ∈ e.children, x ∈ child.preorder := by
  rw [preorder, preorderFrom, preorderFrom_append, List.append_nil, Array.mem_append,
    mem_preorderFrom]
  simp

mutual
/-- Equality of trees in which numbers are compared as numbers: what is not a number differs from
itself, and the two zeros are equal. -/
def beq : Expr → Expr → Bool
  | program a, program b => beqAll a b
  | name a, name b => a == b
  | number a, number b => a == b
  | text a, text b => a == b
  | null, null => true
  | binary op a b, binary op' a' b' => op == op' && a.beq a' && b.beq b'
  | declare id a, declare id' a' => id == id' && a.beq a'
  | call a args, call a' args' => a.beq a' && beqAll args args'
  | unary op a, unary op' a' => op == op' && a.beq a'
  | function id ps body, function id' ps' body' => id == id' && ps == ps' && beqAll body body'
  | _, _ => false

def beqAll : List Expr → List Expr → Bool
  | [], [] => true
  | a :: as, b :: bs => a.beq b && beqAll as bs
  | _, _ => false
end

instance : BEq Expr := ⟨beq⟩

end Expr
end Reckoner
