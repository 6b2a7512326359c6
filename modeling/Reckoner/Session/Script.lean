import Reckoner.Session
import Reckoner.Text.Lines
import Reckoner.Text.WhiteSpace

/-! # Scripts

A script is a file whose lines are evaluated in one session. Blank lines are skipped, each value is
printed, and the first failing line ends the run.
-/
namespace Reckoner.Script
set_option autoImplicit false

/-- Goes on with the lines that are left, the first of which has a given number, behind the effects so
far. -/
def proceed (session : Session) (path : String) :
    List (List Char) → Nat → Array Effect → Transcript Failure Unit
  | [], _, done => ⟨done, .ok ()⟩
  | line :: rest, number, done =>
    if Text.isBlankLine line then proceed session path rest (number + 1) done
    else
      let evaluated := session.evaluateLine (String.ofList line)
      match evaluated.result with
      | .ok value =>
        proceed session path rest (number + 1)
          ((done ++ evaluated.effects).push (.print (value.render ++ "\n")))
      | .error e => ⟨done ++ evaluated.effects, .error (.inFile path number e)⟩

theorem proceed_append (session : Session) (path : String) (lines : List (List Char)) (number : Nat)
    (done : Array Effect) :
    proceed session path lines number done =
      ⟨done ++ (proceed session path lines number #[]).effects,
        (proceed session path lines number #[]).result⟩ := by
  induction lines generalizing number done with
  | nil => simp [proceed]
  | cons line rest ih =>
    simp only [proceed]
    split
    · exact ih (number + 1) done
    · cases (session.evaluateLine (String.ofList line)).result with
      | error e => simp
      | ok value =>
        dsimp only
        rw [ih, ih (number + 1) (Array.push _ _)]
        simp

def run (settings : Settings) (path source : String) : Transcript Failure Unit :=
  proceed (.start settings.ast) path (Text.fileLines source.toList) 1 #[]

end Reckoner.Script
