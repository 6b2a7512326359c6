import Reckoner.Proofs.Evaluation.Leaves
import Reckoner.Proofs.Evaluation.NullValue

/-! # The steps of an evaluation

An evaluation finishes one expression after the other, each behind those that it is made of, up to the
first fault. What it tells on the way is one event for each operation that has met a null and one for
each program that has a value, at the place where the operation or the program is finished.
-/
namespace Reckoner
set_option autoImplicit false

mutual
/-- The expressions of a tree, each behind its subexpressions, from left to right. Reserved forms are not
gone into. -/
def Expr.steps : Expr → List Expr
  | .program body => stepsAll body ++ [.program body]
  | .binary op left right => left.steps ++ (right.steps ++ [.binary op left right])
  | e => [e]

def Expr.stepsAll : List Expr → List Expr
  | [] => []
  | e :: rest => e.steps ++ stepsAll rest
end

/-- The event of an operation whose operands have values, one of which is null. -/
def Expr.note? (look : Lookup) : Expr → Option Event
  | .binary op left right =>
    match left.eval look, right.eval look with
    | .ok a, .ok b => if a = .null ∨ b = .null then some (.absorbed op a b) else none
    | _, _ => none
  | _ => none

def Expr.event? (look : Lookup) : Expr → Option Event
  | .program body => ((Expr.program body).eval look).toOption.map .evaluated
  | e => e.note? look

theorem Operator.notes_eq (op : Operator) (a b : Value) :
    op.notes a b = if a = .null ∨ b = .null then [.absorbed op a b] else [] := by
  cases a <;> cases b <;> simp [notes]

/-- The steps in front of the first fault. -/
def Store.finished (s : Store) (f : Nat) (steps : List Expr) : List Expr :=
  steps.takeWhile fun e => (s.fault? f e).isNone

section Steps

variable (s : Store) (f : Nat)

mutual
/-- Only leaves are faulty, and all of them are steps. -/
theorem Expr.faults_steps (e : Expr) :
    e.steps.filterMap (s.fault? f) = e.leaves.filterMap (s.fault? f) := by
  cases e with
  | program body =>
    rw [steps, leaves, List.filterMap_append, faults_stepsAll body]
    simp [Store.fault?]
  | binary op left right =>
    rw [steps, leaves, List.filterMap_append, List.filterMap_append, List.filterMap_append,
      faults_steps left, faults_steps right]
    simp [Store.fault?]
  | name _ | number _ | null | text _ | declare _ _ | call _ _ | unary _ _ | function _ _ _ =>
    rw [steps, leaves] <;> simp

theorem Expr.faults_stepsAll (body : List Expr) :
    (stepsAll body).filterMap (s.fault? f) = (leavesAll body).filterMap (s.fault? f) := by
  cases body with
  | nil => rw [stepsAll, leavesAll]
  | cons e rest =>
    rw [stepsAll, leavesAll, List.filterMap_append, List.filterMap_append, faults_steps e,
      faults_stepsAll rest]
end

theorem Expr.exists_eval_iff (e : Expr) :
    (∃ value, e.eval (s.get f) = .ok value) ↔ ∀ x ∈ e.steps, s.fault? f x = none := by
  have hDecides := e.decides_evaluate s f
  rw [evaluate_eq, ← faults_steps] at hDecides
  rw [hDecides.ok_iff, List.filterMap_eq_nil_iff]

def Store.told (steps : List Expr) : List Event :=
  (s.finished f steps).filterMap (Expr.event? (s.get f))

variable {s f}

theorem Store.finished_of_forall {steps : List Expr} (h : ∀ x ∈ steps, s.fault? f x = none)
    (rest : List Expr) : s.finished f (steps ++ rest) = steps ++ s.finished f rest := by
  apply List.takeWhile_append_of_pos
  intro x hx
  rw [h x hx]
  rfl

theorem Store.finished_of_exists {steps : List Expr} (h : ∃ x ∈ steps, s.fault? f x ≠ none)
    (rest : List Expr) : s.finished f (steps ++ rest) = s.finished f steps := by
  induction steps with
  | nil => simp at h
  | cons x steps ih =>
    simp only [finished, List.cons_append, List.takeWhile_cons]
    split
    · rename_i hSound
      obtain ⟨y, hy, hFault⟩ := h
      rcases List.mem_cons.mp hy with rfl | hLater
      · exact absurd (Option.isNone_iff_eq_none.mp hSound) hFault
      · rw [← finished, ih ⟨y, hLater, hFault⟩, finished]
    · rfl

theorem Store.told_append_of_forall {steps : List Expr} (h : ∀ x ∈ steps, s.fault? f x = none)
    (rest : List Expr) : s.told f (steps ++ rest) = s.told f steps ++ s.told f rest := by
  have hAlone : s.finished f steps = steps := by
    simpa [finished] using finished_of_forall h []
  rw [told, told, told, finished_of_forall h, hAlone, List.filterMap_append]

theorem Store.told_append_of_exists {steps : List Expr} (h : ∃ x ∈ steps, s.fault? f x ≠ none)
    (rest : List Expr) : s.told f (steps ++ rest) = s.told f steps := by
  rw [told, told, finished_of_exists h]

theorem Expr.exists_fault {e : Expr} {err : EvalError} (h : e.eval (s.get f) = .error err) :
    ∃ x ∈ e.steps, s.fault? f x ≠ none := by
  by_contra hNone
  obtain ⟨value, hValue⟩ := (e.exists_eval_iff s f).mpr (by simpa using hNone)
  rw [h] at hValue
  cases hValue

theorem Store.told_of_ok {e : Expr} {value : Value} (h : e.eval (s.get f) = .ok value)
    (rest : List Expr) : s.told f (e.steps ++ rest) = s.told f e.steps ++ s.told f rest :=
  told_append_of_forall ((e.exists_eval_iff s f).mp ⟨value, h⟩) rest

theorem Store.told_of_error {e : Expr} {err : EvalError} (h : e.eval (s.get f) = .error err)
    (rest : List Expr) : s.told f (e.steps ++ rest) = s.told f e.steps :=
  told_append_of_exists (Expr.exists_fault h) rest

theorem Store.told_singleton {x : Expr} (h : s.fault? f x = none) :
    s.told f [x] = (x.event? (s.get f)).toList := by
  cases hEvent : x.event? (s.get f) <;> simp [told, finished, h, hEvent]

theorem Store.told_of_silent {x : Expr} (h : x.event? (s.get f) = none) : s.told f [x] = [] := by
  rw [told, List.filterMap_eq_nil_iff]
  intro y hy
  obtain rfl := List.mem_singleton.mp ((List.takeWhile_sublist _).mem hy)
  exact h

mutual
/-- The events of an evaluation are those of its steps in front of the first fault, in order. -/
theorem Expr.trace_eq_told (e : Expr) : e.trace (s.get f) = s.told f e.steps := by
  cases e with
  | program body =>
    rw [trace, steps]
    apply traceAll_eq_told body rfl
    rw [event?, eval]
  | binary op left right =>
    rw [trace, steps, trace_eq_told left, trace_eq_told right]
    cases hLeft : left.eval (s.get f) with
    | error err => rw [Store.told_of_error hLeft, List.append_nil]
    | ok a =>
      rw [Store.told_of_ok hLeft]
      cases hRight : right.eval (s.get f) with
      | error err =>
        dsimp only
        rw [Store.told_of_error hRight, List.append_nil]
      | ok b =>
        dsimp only
        rw [Store.told_of_ok hRight, Store.told_singleton rfl, op.notes_eq]
        simp only [event?, note?, hLeft, hRight]
        split <;> rfl
  | name _ | number _ | null | text _ | declare _ _ | call _ _ | unary _ _ | function _ _ _ =>
    rw [trace, steps]
    · exact (Store.told_of_silent rfl).symm
    all_goals simp

-- `last` stands for the program that the statements belong to: it is finished behind them
theorem Expr.traceAll_eq_told (body : List Expr) {value : Value} {last : Expr}
    (hSound : s.fault? f last = none)
    (hLast : last.event? (s.get f) = (evalAll (s.get f) body value).toOption.map .evaluated) :
    traceAll (s.get f) body value = s.told f (stepsAll body ++ [last]) := by
  cases body with
  | nil =>
    rw [traceAll, stepsAll, List.nil_append, Store.told_singleton hSound, hLast, evalAll]
    rfl
  | cons e rest =>
    rw [evalAll_cons] at hLast
    rw [traceAll, stepsAll, List.append_assoc, trace_eq_told e]
    cases hValue : e.eval (s.get f) with
    | error err => rw [Store.told_of_error hValue, List.append_nil]
    | ok v =>
      rw [hValue] at hLast
      dsimp only
      rw [Store.told_of_ok hValue, traceAll_eq_told rest hSound hLast]
end

end Steps

theorem Expr.toList_preorderFrom (es : List Expr) :
    (preorderFrom es #[]).toList = es.flatMap fun e => e.preorder.toList := by
  induction es with
  | nil => simp [preorderFrom]
  | cons e es ih =>
    rw [← List.singleton_append, preorderFrom_list_append, Array.toList_append, ih,
      List.flatMap_append]
    simp [preorder]

theorem Expr.toList_preorder (e : Expr) :
    e.preorder.toList = e :: e.children.flatMap fun child => child.preorder.toList := by
  rw [preorder, preorderFrom, preorderFrom_append, List.append_nil, Array.toList_append,
    toList_preorderFrom]
  rfl

mutual
/-- An expression with a value is gone into completely. -/
theorem Expr.perm_steps {look : Lookup} (e : Expr) {value : Value} (h : e.eval look = .ok value) :
    e.steps.Perm e.preorder.toList := by
  cases e with
  | program body =>
    rw [eval] at h
    rw [steps, toList_preorder]
    exact (List.perm_append_singleton _ _).trans ((perm_stepsAll body h).cons _)
  | binary op left right =>
    rw [eval_binary] at h
    obtain ⟨a, hLeft, hRest⟩ := Parser.bind_eq_ok h
    obtain ⟨b, hRight, _⟩ := Parser.bind_eq_ok hRest
    rw [steps, toList_preorder, ← List.append_assoc]
    refine (List.perm_append_singleton _ _).trans (List.Perm.cons _ ?_)
    simpa [children] using (perm_steps left hLeft).append (perm_steps right hRight)
  | name _ | number _ | null =>
    rw [steps, toList_preorder]
    · exact List.Perm.refl _
    all_goals simp
  | text _ | declare _ _ | call _ _ | unary _ _ | function _ _ _ =>
    rw [eval] at h
    cases h

theorem Expr.perm_stepsAll {look : Lookup} (body : List Expr) {last value : Value}
    (h : evalAll look body last = .ok value) :
    (stepsAll body).Perm (body.flatMap fun e => e.preorder.toList) := by
  cases body with
  | nil =>
    rw [stepsAll]
    exact List.Perm.refl _
  | cons e rest =>
    rw [evalAll_cons] at h
    obtain ⟨v, hValue, hRest⟩ := Parser.bind_eq_ok h
    rw [stepsAll, List.flatMap_cons]
    exact (perm_steps e hValue).append (perm_stepsAll rest hRest)
end

def Expr.isNullOperation (look : Lookup) : Expr → Bool
  | .binary op left right => decide ((Expr.binary op left right).eval look = .ok .null)
  | _ => false

theorem Expr.isSome_note? (look : Lookup) (e : Expr) :
    (e.note? look).isSome = e.isNullOperation look := by
  cases e with
  | binary op left right =>
    simp only [note?, isNullOperation, eval_binary]
    cases left.eval look with
    | error err => simp [Except.bind]
    | ok a =>
      cases right.eval look with
      | error err => simp [Except.bind]
      | ok b =>
        simp only [Except.bind, Except.ok.injEq, Operator.apply_eq_null_iff]
        split <;> simp_all
  | _ => rfl

section Statements

variable {s : Store} {f : Nat}

theorem Expr.stepsAll_eq_flatMap (body : List Expr) : stepsAll body = body.flatMap steps := by
  induction body with
  | nil => rw [stepsAll, List.flatMap_nil]
  | cons e rest ih => rw [stepsAll, List.flatMap_cons, ih]

/-- A phrase has no program in it. -/
theorem event?_eq_note?_of_spells {tier : Grammar.Tier} {ts : List Token} {e : Expr}
    (h : Grammar.Spells tier ts e) (look : Lookup) : ∀ x ∈ e.steps, x.event? look = x.note? look := by
  induction h with
  | name _ | null _ | number _ _ =>
    rw [Expr.steps]
    · simp [Expr.event?]
    all_goals simp
  | group _ _ _ ih | single _ ih | alone _ ih => exact ih
  | times _ _ _ _ ihLeft ihRight | plus _ _ _ _ ihLeft ihRight =>
    rw [Expr.steps]
    simp only [List.mem_append, List.mem_singleton]
    rintro x (hLeft | hRight | rfl)
    · exact ihLeft x hLeft
    · exact ihRight x hRight
    · rfl

/-- The events of a program: those of the operations in front of the first fault, and its value if there
is no fault. -/
theorem trace_of_parse {source : String} {p : Program} (h : Program.parse source = .ok p) :
    p.toExpr.trace (s.get f) =
      (s.finished f (Expr.stepsAll p.body)).filterMap (Expr.note? (s.get f)) ++
        ((p.toExpr.eval (s.get f)).toOption.map Event.evaluated).toList := by
  have hNotes : s.told f (Expr.stepsAll p.body) =
      (s.finished f (Expr.stepsAll p.body)).filterMap (Expr.note? (s.get f)) := by
    apply List.filterMap_congr
    intro x hx
    have hStep := (List.takeWhile_sublist _).mem hx
    rw [Expr.stepsAll_eq_flatMap] at hStep
    obtain ⟨e, he, hx⟩ := List.mem_flatMap.mp hStep
    obtain ⟨ts, hSpells⟩ := exists_spells_of_parse h he
    exact event?_eq_note?_of_spells hSpells _ x hx
  have hSteps : p.toExpr.steps = Expr.stepsAll p.body ++ [p.toExpr] := by
    rw [Program.toExpr, Expr.steps]
  rw [Expr.trace_eq_told, hSteps, ← hNotes]
  cases hValue : p.toExpr.eval (s.get f) with
  | ok value =>
    have hSound := (p.toExpr.exists_eval_iff s f).mp ⟨value, hValue⟩
    rw [hSteps] at hSound
    have hEvent : p.toExpr.event? (s.get f) = some (.evaluated value) := by
      rw [Program.toExpr, Expr.event?, ← Program.toExpr, hValue]
      rfl
    rw [Store.told_append_of_forall fun x hx => hSound x (List.mem_append_left _ hx),
      Store.told_singleton rfl, hEvent]
    rfl
  | error err =>
    obtain ⟨x, hx, hFault⟩ := Expr.exists_fault hValue
    rw [hSteps] at hx
    -- the program itself is not what is faulty
    have hBody : x ∈ Expr.stepsAll p.body := by
      refine (List.mem_append.mp hx).resolve_right fun hLast => hFault ?_
      obtain rfl := List.mem_singleton.mp hLast
      rfl
    rw [Store.told_append_of_exists ⟨x, hBody, hFault⟩]
    exact (List.append_nil _).symm

/-- A program with a value tells of as many operations as have the value null. -/
theorem length_notes_of_ok {p : Program} {value : Value}
    (h : p.toExpr.eval (s.get f) = .ok value) :
    ((s.finished f (Expr.stepsAll p.body)).filterMap (Expr.note? (s.get f))).length =
      p.toExpr.preorder.toList.countP (Expr.isNullOperation (s.get f)) := by
  have hSound := (p.toExpr.exists_eval_iff s f).mp ⟨value, h⟩
  have hPerm := p.toExpr.perm_steps h
  rw [Program.toExpr, Expr.steps] at hSound hPerm
  have hFinished : s.finished f (Expr.stepsAll p.body) = Expr.stepsAll p.body :=
    List.takeWhile_eq_self_iff.mpr fun x hx => by
      rw [hSound x (List.mem_append_left _ hx)]
      rfl
  have hLast : [Expr.program p.body].countP (Expr.isNullOperation (s.get f)) = 0 := rfl
  rw [hFinished, List.length_filterMap_eq_countP, Program.toExpr, ← hPerm.countP_eq,
    List.countP_append, hLast, Nat.add_zero]
  simp only [Expr.isSome_note?]

end Statements

end Reckoner
