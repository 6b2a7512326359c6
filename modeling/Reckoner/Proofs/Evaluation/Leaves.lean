import Mathlib
import Reckoner.Proofs.Evaluation.Faults
import Reckoner.Proofs.Scope.Independence
import Reckoner.Session

/-! # The leaves of an expression

An evaluation goes into programs and operations and stops at everything else: at names, at literals,
and at reserved forms, whatever these contain. What it stops at are the leaves, in the order in which
they are met. The first faulty leaf is what the evaluation reports, and the names among the leaves are
all that it asks of its surroundings.
-/
namespace Reckoner
set_option autoImplicit false

open EvalError

mutual
def Expr.leaves : Expr → List Expr
  | .program body => leavesAll body
  | .binary _ left right => left.leaves ++ right.leaves
  | e => [e]

def Expr.leavesAll : List Expr → List Expr
  | [] => []
  | e :: rest => e.leaves ++ leavesAll rest
end

@[simp] theorem Expr.leaves_name (id : String) : (Expr.name id).leaves = [.name id] := by
  simp [leaves]

/-- What is wrong with a leaf that is met in the frame `f`: it is a name that no frame in sight binds,
or a reserved form. -/
def Store.fault? (s : Store) (f : Nat) : Expr → Option EvalError
  | .name id => if s.Unbound f id then some (.scope (.undefined id)) else none
  | .number _ | .null | .program _ | .binary _ _ _ => none
  | e => some (.unsupported e.kind)

theorem Store.faults_name (s : Store) (f : Nat) (id : String) :
    (Expr.name id).faults (s.get f) = [Expr.name id].filterMap (s.fault? f) := by
  rw [Expr.faults]
  by_cases hUnbound : s.Unbound f id
  · simp [fault?, get_of_unbound hUnbound, hUnbound]
  · obtain ⟨value, hValue⟩ := exists_get_of_not_unbound hUnbound
    simp [fault?, hValue, hUnbound]

mutual
theorem Expr.faults_eq (s : Store) (f : Nat) (e : Expr) :
    e.faults (s.get f) = e.leaves.filterMap (s.fault? f) := by
  cases e with
  | program body =>
    rw [faults, leaves]
    exact faultsAll_eq s f body
  | binary op left right =>
    rw [faults, leaves, List.filterMap_append, faults_eq s f left, faults_eq s f right]
  | name id => rw [leaves_name, s.faults_name]
  | number _ | null | text _ | declare _ _ | call _ _ | unary _ _ | function _ _ _ =>
    -- these are their own only leaf, whatever stands in them
    simp [faults, leaves, Store.fault?]

theorem Expr.faultsAll_eq (s : Store) (f : Nat) (body : List Expr) :
    faultsAll (s.get f) body = (leavesAll body).filterMap (s.fault? f) := by
  cases body with
  | nil => rw [faultsAll, leavesAll, List.filterMap_nil]
  | cons e rest =>
    rw [faultsAll, leavesAll, List.filterMap_append, faults_eq s f e, faultsAll_eq s f rest]
end

theorem Expr.decides_evaluate (s : Store) (f : Nat) (e : Expr) :
    Decides (e.leaves.filterMap (s.fault? f)) (e.evaluate (s.get f)).result := by
  rw [← faults_eq, evaluate_eq]
  exact decides_eval (s.get f) e

/-- Which leaves are faulty depends on which names are bound, and not on their values. -/
theorem Store.fault?_congr {s t : Store} {f g : Nat} {leaf : Expr}
    (h : ∀ id, leaf = .name id → (t.Unbound g id ↔ s.Unbound f id)) :
    t.fault? g leaf = s.fault? f leaf := by
  cases leaf with
  | name id => simp only [fault?, h id rfl]
  | _ => rfl

/-- An evaluation fails with the first fault among its leaves and has a value if there is none. No value
plays a part in this: in any other frame that binds the same names among the leaves, to null or to
numbers, it fails alike. -/
theorem evaluate_fails_with_first_fault (s : Store) (f : Nat) (e : Expr) :
    let faults := e.leaves.filterMap (s.fault? f)
    (∀ err, (e.evaluate (s.get f)).result = .error err ↔ faults.head? = some err) ∧
    ((∃ value, (e.evaluate (s.get f)).result = .ok value) ↔ faults = []) ∧
    ∀ (t : Store) (g : Nat),
      (∀ id, .name id ∈ e.leaves → (t.Unbound g id ↔ s.Unbound f id)) →
      ∀ err, (e.evaluate (t.get g)).result = .error err ↔ (e.evaluate (s.get f)).result = .error err := by
  intro faults
  have hDecides : Decides faults (e.evaluate (s.get f)).result := e.decides_evaluate s f
  refine ⟨hDecides.error_iff, hDecides.ok_iff, ?_⟩
  intro t g hBound err
  -- the other frame finds fault with the same leaves
  have hFaults : e.leaves.filterMap (t.fault? g) = faults := by
    apply List.filterMap_congr
    intro leaf hLeaf
    apply Store.fault?_congr
    rintro id rfl
    exact hBound id hLeaf
  rw [(e.decides_evaluate t g).error_iff, hFaults, hDecides.error_iff]

/-- A null on the left does not spare the right operand, and what stands in the reserved form is not
looked at. -/
theorem evaluate_fails_with_first_fault_reserved :
    let s := (Store.empty.push none).bind 0 "x" .null
    let t := (Store.empty.push none).bind 0 "x" (.number 1)
    let e : Expr := .program
      [.binary .add .null (.program [.name "x", .call (.name "y") [.name "z"]]), .name "z"]
    (∀ id, .name id ∈ e.leaves → (t.Unbound 0 id ↔ s.Unbound 0 id)) ∧
      (e.evaluate (s.get 0)).result = .error (.unsupported "CallExpression") ∧
      (e.evaluate (t.get 0)).result = .error (.unsupported "CallExpression") := by
  intro s t e
  have hBound : ∀ id, .name id ∈ e.leaves → (t.Unbound 0 id ↔ s.Unbound 0 id) := by
    intro id hLeaf
    have hNames : id = "x" ∨ id = "z" := by simpa [e, Expr.leaves, Expr.leavesAll] using hLeaf
    rcases hNames with rfl | rfl
    · decide +kernel
    · decide +kernel
  obtain ⟨hFirst, _, hBlind⟩ := evaluate_fails_with_first_fault s 0 e
  have hFails : (e.evaluate (s.get 0)).result = .error (.unsupported "CallExpression") :=
    (hFirst _).mpr (by decide +kernel)
  exact ⟨hBound, hFails, (hBlind t 0 hBound _).mpr hFails⟩

/-- The two give the same for each name among the leaves. -/
def Lookup.AgreeOn (leaves : List Expr) (look other : Lookup) : Prop :=
  ∀ id, .name id ∈ leaves → look id = other id

theorem Lookup.agreeOn_append_iff {look other : Lookup} {a b : List Expr} :
    AgreeOn (a ++ b) look other ↔ AgreeOn a look other ∧ AgreeOn b look other := by
  simp only [AgreeOn, List.mem_append, or_imp, forall_and]

section Congr

variable {look other : Lookup}

mutual
theorem Expr.eval_congr (e : Expr) (h : Lookup.AgreeOn e.leaves look other) :
    e.eval look = e.eval other := by
  cases e with
  | program body =>
    rw [leaves] at h
    rw [eval, eval]
    exact evalAll_congr body h .null
  | name id =>
    have hSame : look id = other id := h id (by simp)
    rw [eval, eval, Lookup.eval, Lookup.eval, hSame]
  | binary op left right =>
    rw [leaves, Lookup.agreeOn_append_iff] at h
    rw [eval_binary, eval_binary, eval_congr left h.1, eval_congr right h.2]
  | number _ | null | text _ | declare _ _ | call _ _ | unary _ _ | function _ _ _ => rw [eval, eval]

theorem Expr.evalAll_congr (body : List Expr) (h : Lookup.AgreeOn (leavesAll body) look other)
    (last : Value) : evalAll look body last = evalAll other body last := by
  cases body with
  | nil => rw [evalAll, evalAll]
  | cons e rest =>
    rw [leavesAll, Lookup.agreeOn_append_iff] at h
    rw [evalAll_cons, evalAll_cons, eval_congr e h.1]
    congr 1
    funext value
    exact evalAll_congr rest h.2 value
end

mutual
theorem Expr.trace_congr (e : Expr) (h : Lookup.AgreeOn e.leaves look other) :
    e.trace look = e.trace other := by
  cases e with
  | program body =>
    rw [leaves] at h
    rw [trace, trace]
    exact traceAll_congr body h .null
  | binary op left right =>
    rw [leaves, Lookup.agreeOn_append_iff] at h
    -- the events behind an operand depend on whether it has a value, and the last one on both values
    rw [trace, trace, trace_congr left h.1, trace_congr right h.2, eval_congr left h.1,
      eval_congr right h.2]
  | name _ | number _ | null | text _ | declare _ _ | call _ _ | unary _ _ | function _ _ _ =>
    rw [trace, trace]

theorem Expr.traceAll_congr (body : List Expr) (h : Lookup.AgreeOn (leavesAll body) look other)
    (last : Value) : traceAll look body last = traceAll other body last := by
  cases body with
  | nil => rw [traceAll, traceAll]
  | cons e rest =>
    rw [leavesAll, Lookup.agreeOn_append_iff] at h
    rw [traceAll, traceAll, trace_congr e h.1, eval_congr e h.1]
    cases e.eval other with
    | error err => rfl
    | ok value =>
      dsimp only
      rw [traceAll_congr rest h.2 value]
end

theorem Expr.evaluate_congr {e : Expr} (h : Lookup.AgreeOn e.leaves look other) :
    e.evaluate look = e.evaluate other := by
  rw [evaluate_eq, evaluate_eq, eval_congr e h, trace_congr e h]

end Congr

/-- The reply that tells what a line came to. -/
def Store.Reply.ofLine : Except LineError Value → Reply
  | .ok v => .value v
  | .error e => .failed e

namespace Session

theorem perform_evaluateText (s : Session) (line : String) :
    s.store.perform (.evaluateText s.root line) = (.ofLine (s.evaluateLine line).result, s.store) := by
  rw [Store.perform, result_evaluateLine_eq]
  cases Program.parse line with
  | error e => rfl
  | ok p =>
    dsimp only
    cases (p.toExpr.evaluate (s.store.get s.root)).result <;> rfl

/-- Lines leave the frames of a session as they are, so that each is answered like the first one. -/
theorem performAll_evaluateText (s : Session) (lines : List String) :
    (Store.performAll (lines.map (.evaluateText s.root)) s.store #[]).1.toList =
        (lines.map fun line => .ofLine (s.evaluateLine line).result) ∧
      (Store.performAll (lines.map (.evaluateText s.root)) s.store #[]).2 = s.store := by
  induction lines with
  | nil => exact ⟨rfl, rfl⟩
  | cons line lines ih =>
    rw [List.map_cons, Store.toList_performAll_cons, Store.store_performAll_cons,
      perform_evaluateText, List.map_cons]
    exact ⟨congrArg _ ih.1, ih.2⟩

theorem result_evaluateLine_congr {s t : Session} {line : String}
    (h : ∀ p, Program.parse line = .ok p →
      Lookup.AgreeOn p.toExpr.leaves (s.store.get s.root) (t.store.get t.root)) :
    (s.evaluateLine line).result = (t.evaluateLine line).result := by
  rw [result_evaluateLine_eq, result_evaluateLine_eq]
  cases hParse : Program.parse line with
  | error e => rfl
  | ok p =>
    dsimp only
    rw [Expr.evaluate_congr (h p hParse)]

end Session

/-- Frames in which the names among the leaves of an expression lead to the same values or failures give
it the same outcome, wherever these frames stand and whatever else they bind or hide. So lines come to
the same in sessions that agree on their names; and lines asked one behind the other, in any order,
come each to what it comes to on its own. -/
theorem evaluate_depends_on_names :
    (∀ (e : Expr) (s t : Store) (f g : Nat), Lookup.AgreeOn e.leaves (s.get f) (t.get g) →
      e.evaluate (s.get f) = e.evaluate (t.get g)) ∧
    (∀ (s t : Session) (line : String),
      (∀ p, Program.parse line = .ok p →
        Lookup.AgreeOn p.toExpr.leaves (s.store.get s.root) (t.store.get t.root)) →
      (s.evaluateLine line).result = (t.evaluateLine line).result) ∧
    ∀ (s : Session) (lines : List String),
      let asked := Store.performAll (lines.map (.evaluateText s.root)) s.store #[]
      asked.1.toList = (lines.map fun line => .ofLine (s.evaluateLine line).result) ∧
        asked.2 = s.store := by
  refine ⟨?_, ?_, ?_⟩
  · intro e s t f g hAgree
    exact Expr.evaluate_congr hAgree
  · intro s t line hAgree
    exact Session.result_evaluateLine_congr hAgree
  · intro s lines
    exact s.performAll_evaluateText lines

/-- Further frames, a hidden binding and the names inside a reserved form make no difference, and a line
that fails leaves none for the next one. -/
theorem evaluate_depends_on_names_hidden :
    let s := ((Store.empty.push none).bind 0 "x" .null).bind 0 "y" .null
    let t := (((Store.empty.push none).bind 0 "x" (.number 1)).push (some 0)).bind 1 "x" .null
    let e : Expr := .binary .add (.name "x") (.unary "-" (.name "y"))
    Lookup.AgreeOn e.leaves (s.get 0) (t.get 1) ∧ e.evaluate (s.get 0) = e.evaluate (t.get 1) ∧
      Program.parse "null + x" = .ok ⟨[.binary .add .null (.name "x")]⟩ ∧
      ((⟨s, 0, true⟩ : Session).evaluateLine "null + x").result =
        ((⟨t, 1, false⟩ : Session).evaluateLine "null + x").result ∧
      (Store.performAll [.evaluateText 1 "y", .evaluateText 1 "x"] t #[]).1.toList =
        [.failed (.eval (.scope (.undefined "y"))), .value .null] := by
  intro s t e
  have hSame : s.get 0 "x" = t.get 1 "x" := by decide +kernel
  have hAgree : Lookup.AgreeOn e.leaves (s.get 0) (t.get 1) := by
    intro id hLeaf
    obtain rfl : id = "x" := by simpa [e, Expr.leaves] using hLeaf
    exact hSame
  have hParse : Program.parse "null + x" = .ok ⟨[.binary .add .null (.name "x")]⟩ := by cbv
  obtain ⟨hOutcome, hLine, hLines⟩ := evaluate_depends_on_names
  refine ⟨hAgree, hOutcome e s t 0 1 hAgree, hParse, ?_, ?_⟩
  · apply hLine
    intro p hp id hLeaf
    obtain rfl := Except.ok.inj (hParse.symm.trans hp)
    obtain rfl : id = "x" := by simpa [Program.toExpr, Expr.leaves, Expr.leavesAll] using hLeaf
    exact hSame
  · have hAsked := (hLines ⟨t, 1, false⟩ ["y", "x"]).1
    exact hAsked.trans (by cbv)

end Reckoner
