import Reckoner.Session.Dialogue
import Reckoner.Session.Script

/-! # Runs that write as they go

A transcript lists the effects of a run that meets no resistance. The runs below perform each effect on
a console before they go on, and look at how the evaluation of a line ended there: a failure of the
line is passed on with its place in the file or reported as an error, one of the stream ends the run as
it is. They come to the same as playing the transcript.
-/
namespace Reckoner
set_option autoImplicit false

namespace Console

/-- Goes on behind an effect that succeeds. -/
def attempt {α : Type} (c : Console) (effect : Effect) (next : Console → Report α) : Report α :=
  match c.perform effect with
  | (c, true) => next c
  | (c, false) => ⟨c, .error (.stream .full)⟩

end Console

namespace Script

def proceedOn (session : Session) (path : String) :
    List (List Char) → Nat → Console → Report Unit
  | [], _, c => ⟨c, .ok ()⟩
  | line :: rest, number, c =>
    if Text.isBlankLine line then proceedOn session path rest (number + 1) c
    else
      let report := ((session.evaluateLine (String.ofList line)).mapError .line).play c
      match report.result with
      | .ok value =>
        report.console.attempt (.print (value.render ++ "\n"))
          (proceedOn session path rest (number + 1))
      | .error (.line e) => ⟨report.console, .error (.inFile path number e)⟩
      | .error e => ⟨report.console, .error e⟩

def runOn (settings : Settings) (path source : String) : Console → Report Unit :=
  proceedOn (.start settings.ast) path (Text.fileLines source.toList) 1

end Script

namespace Dialogue

/-- Answers a line on the console and goes on; only a failure of the stream ends the dialogue. -/
def answerOn (session : Session) (source : String) (next : Console → Report Unit) (c : Console) :
    Report Unit :=
  let report := ((session.evaluateLine source).mapError .line).play c
  match report.result with
  | .ok value => report.console.attempt (.print (value.render ++ "\n")) next
  | .error (.line e) =>
    report.console.attempt (.record (.lineFailed e.message)) fun c =>
      c.attempt (.complain ("Error: " ++ e.message ++ "\n")) next
  | .error e => ⟨report.console, .error e⟩

def proceedOn (session : Session) (prompt : String) : List (List UInt8) → Console → Report Unit
  | [], c => c.attempt (.print prompt) fun c => ⟨c, .ok ()⟩
  | line :: rest, c =>
    c.attempt (.print prompt) fun c => c.attempt (.consume line.length) fun c =>
      match turn line with
      | .finish result => ⟨c, result⟩
      | .answer source => answerOn session source (proceedOn session prompt rest) c

def runOn (settings : Settings) (input : List UInt8) (c : Console) : Report Unit :=
  c.attempt (.print (greeting ++ "\n"))
    (proceedOn (.start settings.ast) settings.prompt (Text.byteLines input))

end Dialogue

namespace Transcript

section MapError

variable {ε ε' α : Type} (f : ε → ε') (effects : Array Effect)

theorem mapError_error (e : ε) :
    mapError f (⟨effects, .error e⟩ : Transcript ε α) = ⟨effects, .error (f e)⟩ := rfl

theorem mapError_ok (value : α) :
    mapError f (⟨effects, .ok value⟩ : Transcript ε α) = ⟨effects, .ok value⟩ := rfl

end MapError

theorem play_append {α : Type} (a b : Array Effect) (result : Except Failure α) (c : Console) :
    play ⟨a ++ b, result⟩ c = match c.play a.toList with
      | (c, true) => play ⟨b, result⟩ c
      | (c, false) => ⟨c, .error (.stream .full)⟩ := by
  rw [play, Array.toList_append, Console.play_append]
  rcases c.play a.toList with ⟨final, _ | _⟩ <;> rfl

theorem play_cons {α : Type} (effect : Effect) (rest : Array Effect) (result : Except Failure α) :
    play ⟨#[effect] ++ rest, result⟩ = fun c => c.attempt effect (play ⟨rest, result⟩) := by
  funext c
  rw [play_append, Console.attempt, Console.play]
  rcases c.perform effect with ⟨final, _ | _⟩ <;> rfl

end Transcript

namespace Script

theorem proceedOn_eq (session : Session) (path : String) (lines : List (List Char)) (number : Nat) :
    proceedOn session path lines number = (proceed session path lines number #[]).play := by
  induction lines generalizing number with
  | nil => rfl
  | cons line rest ih =>
    funext c
    rw [proceedOn, proceed]
    split
    · rw [ih]
    · generalize session.evaluateLine (String.ofList line) = evaluated
      rcases evaluated with ⟨effects, e | value⟩
      · simp only [Transcript.mapError_error, Transcript.play, Array.empty_append]
        rcases c.play effects.toList with ⟨after, _ | _⟩ <;> rfl
      · -- the value is printed only if the effects of the evaluation went through
        simp only [Transcript.mapError_ok]
        rw [proceed_append, Array.empty_append, ← Array.append_singleton, Array.append_assoc,
          Transcript.play_append, Transcript.play]
        rcases c.play effects.toList with ⟨after, _ | _⟩
        · rfl
        · simp only [Transcript.play_cons, ih]

theorem runOn_eq (settings : Settings) (path source : String) :
    runOn settings path source = (run settings path source).play :=
  proceedOn_eq _ _ _ _

end Script

namespace Dialogue

theorem answerOn_eq (session : Session) (source : String) (rest : Array Effect)
    (result : Except Failure Unit) :
    answerOn session source (Transcript.play ⟨rest, result⟩) =
      Transcript.play ⟨answer session source ++ rest, result⟩ := by
  funext c
  unfold answerOn answer
  rcases session.evaluateLine source with ⟨effects, e | value⟩
  all_goals
    simp only [Transcript.mapError_error, Transcript.mapError_ok, ← Array.append_singleton,
      Array.append_assoc]
    rw [Transcript.play_append, Transcript.play]
    rcases c.play effects.toList with ⟨after, _ | _⟩
    · rfl
    · simp only [Transcript.play_cons]

theorem proceedOn_eq (session : Session) (prompt : String) (lines : List (List UInt8)) :
    proceedOn session prompt lines = (proceed session prompt lines #[]).play := by
  induction lines with
  | nil => exact (Transcript.play_cons (.print prompt) #[] (.ok ())).symm
  | cons line rest ih =>
    have hAsked : ∀ effects : Array Effect,
        #[] ++ #[.print prompt, .consume line.length] ++ effects =
          #[.print prompt] ++ (#[.consume line.length] ++ effects) := by
      intro effects
      exact Array.ext' (by simp)
    funext c
    rw [proceedOn, proceed]
    cases turn line with
    | finish result =>
      exact congrFun (Transcript.play_cons (.print prompt) #[.consume line.length] result).symm c
    | answer source =>
      dsimp only
      rw [proceed_append, hAsked, Array.append_assoc, Array.append_assoc, Transcript.play_cons,
        Transcript.play_cons, ← answerOn_eq, ih]

theorem runOn_eq (settings : Settings) (input : List UInt8) :
    runOn settings input = (run settings input).play := by
  funext c
  rw [runOn, run, proceed_append, Transcript.play_cons, proceedOn_eq]

end Dialogue
end Reckoner
