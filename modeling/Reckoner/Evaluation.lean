import Reckoner.Event
import Reckoner.Expr
import Reckoner.Scope

/-! # Evaluation

`Expr.eval` gives the value of an expression by recursion on the tree, and `Expr.trace` the log events
of its evaluation. A program has the value of its last statement, an empty one null; operands are
evaluated from left to right, and the first failure ends the evaluation. `Expr.evaluate` finds both at
once with an explicit stack, since trees may be as deep as a source is long.
-/
namespace Reckoner
set_option autoImplicit false

inductive EvalError where
  | scope (error : ScopeError)
  | unsupported (kind : String)
deriving DecidableEq, Repr

def EvalError.message : EvalError → String
  | scope error => error.message
  | unsupported kind => "Unknown AST node of type " ++ kind

abbrev Lookup := String → Except ScopeError Value

def Lookup.eval (look : Lookup) (id : String) : Except EvalError Value :=
  match look id with
  | .ok value => .ok value
  | .error e => .error (.scope e)

/-- The event of an operator that meets an operand other than a number. -/
def Operator.notes (op : Operator) : Value → Value → List Event
  | .number _, .number _ => []
  | left, right => [.absorbed op left right]

mutual
/-- The value of an expression, or its first failure. -/
def Expr.eval (look : Lookup) : Expr → Except EvalError Value
  | .program body => evalAll look body .null
  | .name id => look.eval id
  | .number x => .ok (.number x)
  | .null => .ok .null
  | .binary op left right =>
    match left.eval look with
    | .error e => .error e
    | .ok a =>
      match right.eval look with
      | .error e => .error e
      | .ok b => .ok (op.apply a b)
  | .text value => .error (.unsupported (Expr.text value).kind)
  | .declare id value => .error (.unsupported (Expr.declare id value).kind)
  | .call callee arguments => .error (.unsupported (Expr.call callee arguments).kind)
  | .unary op operand => .error (.unsupported (Expr.unary op operand).kind)
  | .function id parameters body => .error (.unsupported (Expr.function id parameters body).kind)

/-- The value of the last statement, or `last` if there is none. -/
def Expr.evalAll (look : Lookup) : List Expr → Value → Except EvalError Value
  | [], last => .ok last
  | e :: rest, _ =>
    match e.eval look with
    | .error err => .error err
    | .ok value => evalAll look rest value
end

theorem Expr.eval_binary (look : Lookup) (op : Operator) (left right : Expr) :
    (Expr.binary op left right).eval look =
      (left.eval look).bind fun a => (right.eval look).bind fun b => .ok (op.apply a b) := by
  rw [eval]
  cases left.eval look with
  | error e => rfl
  | ok a => cases right.eval look <;> rfl

theorem Expr.evalAll_cons (look : Lookup) (e : Expr) (rest : List Expr) (last : Value) :
    evalAll look (e :: rest) last = (e.eval look).bind (evalAll look rest) := by
  rw [evalAll]
  cases e.eval look <;> rfl

mutual
def Expr.trace (look : Lookup) : Expr → List Event
  | .program body => traceAll look body .null
  | .binary op left right =>
    left.trace look ++
      match left.eval look with
      | .error _ => []
      | .ok a =>
        right.trace look ++
          match right.eval look with
          | .error _ => []
          | .ok b => op.notes a b
  | .name _ | .number _ | .null | .text _ | .declare _ _ | .call _ _ | .unary _ _
  | .function _ _ _ => []

def Expr.traceAll (look : Lookup) : List Expr → Value → List Event
  | [], last => [.evaluated last]
  | e :: rest, _ =>
    e.trace look ++
      match e.eval look with
      | .error _ => []
      | .ok value => traceAll look rest value
end

namespace Evaluation

/-- What waits for the value of an expression: the right operand of an operator, the operator itself,
or the other statements of a program. -/
inductive Waiting where
  | right (op : Operator) (operand : Expr)
  | apply (op : Operator) (left : Value)
  | statements (rest : List Expr)

inductive Focus where
  | expr (e : Expr)
  | value (v : Value)

structure Outcome where
  result : Except EvalError Value
  events : Array Event

def Waiting.weight : Waiting → Nat
  | right _ operand => operand.size
  | apply _ _ => 0
  | statements rest => Expr.sizeAll rest

def stackWeight : List Waiting → Nat
  | [] => 0
  | item :: stack => item.weight + stackWeight stack

def Focus.weight : Focus → Nat
  | expr e => e.size
  | value _ => 0

/-- Handing over a value comes before the evaluation of an expression on an equal stack. -/
def Focus.rank : Focus → Nat
  | expr _ => 0
  | value _ => 1

/-- Evaluates the focus and then whatever waits for it, adding to the events so far. -/
def run (look : Lookup) (focus : Focus) (stack : List Waiting) (events : Array Event) : Outcome :=
  match focus, stack with
  | .expr (.program body), stack => run look (.value .null) (.statements body :: stack) events
  | .expr (.name id), stack =>
    match look.eval id with
    | .ok v => run look (.value v) stack events
    | .error e => ⟨.error e, events⟩
  | .expr (.number x), stack => run look (.value (.number x)) stack events
  | .expr .null, stack => run look (.value .null) stack events
  | .expr (.binary op left right), stack => run look (.expr left) (.right op right :: stack) events
  | .expr e, _ => ⟨.error (.unsupported e.kind), events⟩
  | .value v, [] => ⟨.ok v, events⟩
  | .value v, .right op operand :: stack => run look (.expr operand) (.apply op v :: stack) events
  | .value v, .apply op left :: stack =>
    run look (.value (op.apply left v)) stack (events ++ op.notes left v)
  | .value v, .statements [] :: stack => run look (.value v) stack (events.push (.evaluated v))
  | .value _, .statements (e :: rest) :: stack =>
    run look (.expr e) (.statements rest :: stack) events
termination_by (focus.weight + stackWeight stack, 2 * stack.length + focus.rank)
decreasing_by
  all_goals simp only [Focus.weight, Focus.rank, stackWeight, Waiting.weight, Expr.size,
    Expr.sizeAll_cons, Expr.sizeAll_nil, List.length_cons, Prod.lex_def]
  all_goals omega

theorem events_append (events : Array Event) (a b : List Event) :
    events ++ (a ++ b) = events ++ a ++ b :=
  Array.ext' (by simp)

def resume (look : Lookup) (stack : List Waiting) (events : Array Event) :
    Except EvalError Value → Outcome
  | .ok v => run look (.value v) stack events
  | .error e => ⟨.error e, events⟩

mutual
theorem run_expr (look : Lookup) (e : Expr) (stack : List Waiting) (events : Array Event) :
    run look (.expr e) stack events = resume look stack (events ++ e.trace look) (e.eval look) := by
  cases e with
  | program body =>
    rw [run, run_statements look body, Expr.eval, Expr.trace]
  | name id =>
    rw [run, Expr.eval, Expr.trace]
    cases look.eval id <;> simp [resume]
  | number x => rw [run]; simp [Expr.eval, Expr.trace, resume]
  | null => rw [run]; simp [Expr.eval, Expr.trace, resume]
  | binary op left right =>
    rw [run, run_expr look left, Expr.eval, Expr.trace]
    cases left.eval look with
    | error e => simp [resume]
    | ok a =>
      simp only [resume]
      rw [run, run_expr look right]
      cases right.eval look with
      | error e => simp [resume, events_append]
      | ok b =>
        simp only [resume]
        rw [run, events_append, events_append]
  | text _ | declare _ _ | call _ _ | unary _ _ | function _ _ _ =>
    rw [run]
    · simp [Expr.eval, Expr.trace, resume]
    all_goals simp

theorem run_statements (look : Lookup) (body : List Expr) (last : Value) (stack : List Waiting)
    (events : Array Event) :
    run look (.value last) (.statements body :: stack) events =
      resume look stack (events ++ Expr.traceAll look body last) (Expr.evalAll look body last) := by
  cases body with
  | nil => rw [run]; simp [Expr.evalAll, Expr.traceAll, resume]
  | cons e rest =>
    rw [run, run_expr look e, Expr.evalAll, Expr.traceAll]
    cases e.eval look with
    | error err => simp [resume]
    | ok v =>
      simp only [resume]
      rw [run_statements look rest, events_append]
      rfl
end

end Evaluation

def Expr.evaluate (look : Lookup) (e : Expr) : Evaluation.Outcome :=
  Evaluation.run look (.expr e) [] #[]

theorem Expr.evaluate_eq (look : Lookup) (e : Expr) :
    e.evaluate look = ⟨e.eval look, (e.trace look).toArray⟩ := by
  rw [evaluate, Evaluation.run_expr]
  cases e.eval look with
  | error err => simp [Evaluation.resume]
  | ok v => simp [Evaluation.resume, Evaluation.run]

end Reckoner
