import Reckoner.Expr.Printer
import Reckoner.Transcript

/-! # Sessions

A session evaluates one line after the other in a root frame of its own. A line is tokenised, parsed,
shown as a tree if the session shows trees, and evaluated.
-/
namespace Reckoner
set_option autoImplicit false

/-- How lines are answered: whether trees are shown, and what asks for a line. -/
structure Settings where
  ast : Bool := false
  prompt : String := "> "
deriving DecidableEq, Repr

structure Session where
  store : Store
  root : Nat
  ast : Bool

namespace Session

/-- A session with a root frame that binds nothing. -/
def start (ast : Bool) : Session :=
  let (root, store) := Store.empty.newGlobal
  ⟨store, root, ast⟩

/-- Evaluates one line. Lines bind no names, so the session stays as it was. -/
def evaluateLine (s : Session) (source : String) : Transcript LineError Value :=
  match tokenize source with
  | .error e => ⟨#[], .error (.parse (.scan e))⟩
  | .ok tokens =>
    let scanned := #[Effect.record (.tokenized tokens.length)]
    match Program.ofTokens tokens with
    | .error e => ⟨scanned, .error (.parse e)⟩
    | .ok program =>
      let parsed := scanned.push (.record (.parsed program.body.length))
      let shown := if s.ast then parsed.push (.print (program.display ++ "\n")) else parsed
      let outcome := program.toExpr.evaluate (s.store.get s.root)
      ⟨shown ++ outcome.events.map .record, outcome.result.mapError .eval⟩

/-- How a line is shown plays no part in what it comes to. -/
theorem result_evaluateLine_eq (s : Session) (source : String) :
    (s.evaluateLine source).result = match Program.parse source with
      | .error e => .error (.parse e)
      | .ok program => (program.toExpr.evaluate (s.store.get s.root)).result.mapError .eval := by
  rw [evaluateLine, Program.parse]
  cases tokenize source with
  | error e => rfl
  | ok tokens =>
    dsimp only
    cases Program.ofTokens tokens <;> rfl

end Session
end Reckoner
