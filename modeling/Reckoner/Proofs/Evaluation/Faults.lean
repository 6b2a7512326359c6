import Reckoner.Evaluation

/-! # The faults of an expression

The faults of a tree are the names that are not found and the reserved forms, in the order in which an
evaluation meets them: statements one after the other, the left operand before the right one, and
nothing inside a reserved form. An evaluation fails with the first of them and has a value without any.
-/
namespace Reckoner
set_option autoImplicit false

mutual
def Expr.faults (look : Lookup) : Expr → List EvalError
  | .program body => faultsAll look body
  | .name id =>
    match look id with
    | .ok _ => []
    | .error e => [.scope e]
  | .number _ | .null => []
  | .binary _ left right => left.faults look ++ right.faults look
  | .text value => [.unsupported (Expr.text value).kind]
  | .declare id value => [.unsupported (Expr.declare id value).kind]
  | .call callee arguments => [.unsupported (Expr.call callee arguments).kind]
  | .unary op operand => [.unsupported (Expr.unary op operand).kind]
  | .function id parameters body => [.unsupported (Expr.function id parameters body).kind]

def Expr.faultsAll (look : Lookup) : List Expr → List EvalError
  | [] => []
  | e :: rest => e.faults look ++ faultsAll look rest
end

/-- The outcome is the first of the faults, or a value if there are none. -/
def EvalError.Decides (faults : List EvalError) (result : Except EvalError Value) : Prop :=
  (∀ e rest, faults = e :: rest → result = .error e) ∧ (faults = [] → ∃ value, result = .ok value)

namespace EvalError

theorem decides_ok (value : Value) : Decides [] (.ok value) := by
  constructor
  · intro e rest h
    cases h
  · intro _
    exact ⟨value, rfl⟩

theorem decides_error (e : EvalError) (rest : List EvalError) : Decides (e :: rest) (.error e) := by
  constructor
  · intro e' rest' h
    cases h
    rfl
  · intro h
    cases h

/-- What follows a first part counts only if the first part has no faults. -/
theorem Decides.bind {first second : List EvalError} {result : Except EvalError Value}
    {next : Value → Except EvalError Value} (hFirst : Decides first result)
    (hNext : ∀ value, Decides second (next value)) :
    Decides (first ++ second) (result.bind next) := by
  cases first with
  | nil =>
    obtain ⟨value, rfl⟩ := hFirst.2 rfl
    exact hNext value
  | cons e rest =>
    obtain rfl := hFirst.1 e rest rfl
    exact decides_error e _

theorem Decides.error_iff {faults : List EvalError} {result : Except EvalError Value}
    (h : Decides faults result) (e : EvalError) : result = .error e ↔ faults.head? = some e := by
  cases faults with
  | nil =>
    obtain ⟨value, rfl⟩ := h.2 rfl
    simp
  | cons first rest =>
    obtain rfl := h.1 first rest rfl
    simp

theorem Decides.ok_iff {faults : List EvalError} {result : Except EvalError Value}
    (h : Decides faults result) : (∃ value, result = .ok value) ↔ faults = [] := by
  cases faults with
  | nil => exact ⟨fun _ => rfl, h.2⟩
  | cons first rest =>
    obtain rfl := h.1 first rest rfl
    simp

end EvalError

open EvalError

mutual
theorem Expr.decides_eval (look : Lookup) (e : Expr) : Decides (e.faults look) (e.eval look) := by
  cases e with
  | program body =>
    rw [faults, eval]
    exact decides_evalAll look body .null
  | name id =>
    rw [faults, eval, Lookup.eval]
    cases look id with
    | ok value => exact decides_ok value
    | error err => exact decides_error _ []
  | number x =>
    rw [faults, eval]
    exact decides_ok _
  | null =>
    rw [faults, eval]
    exact decides_ok _
  | binary op left right =>
    rw [faults, eval_binary, ← List.append_nil (right.faults look)]
    exact (decides_eval look left).bind fun a => (decides_eval look right).bind fun b => decides_ok _
  | text _ | declare _ _ | call _ _ | unary _ _ | function _ _ _ =>
    rw [faults, eval]
    exact decides_error _ []

theorem Expr.decides_evalAll (look : Lookup) (body : List Expr) (last : Value) :
    Decides (faultsAll look body) (evalAll look body last) := by
  cases body with
  | nil =>
    rw [faultsAll, evalAll]
    exact decides_ok last
  | cons e rest =>
    rw [faultsAll, evalAll_cons]
    exact (decides_eval look e).bind fun value => decides_evalAll look rest value
end

end Reckoner
