import Reckoner.Session
import Reckoner.Text.Lines

/-! # Dialogues

A dialogue greets, and then asks for line after line and answers each one: a value goes to the output,
a failure to the error output. It ends with the input, at an empty line, at a line that contains the
word `exit`, or at a line that is not text.
-/
namespace Reckoner.Dialogue
set_option autoImplicit false

def greeting : String := "Axle v0.1"

/-- A line that contains this word ends the dialogue. -/
def farewell : List Char := ['e', 'x', 'i', 't']

def answer (session : Session) (source : String) : Array Effect :=
  let line := session.evaluateLine source
  match line.result with
  | .ok value => line.effects.push (.print (value.render ++ "\n"))
  | .error e =>
    (line.effects.push (.record (.lineFailed e.message))).push
      (.complain ("Error: " ++ e.message ++ "\n"))

/-- What to do with one line of input: answer its text, or end the dialogue. -/
inductive Turn where
  | answer (source : String)
  | finish (result : Except Failure Unit)

def turn (line : List UInt8) : Turn :=
  match String.fromUTF8? ⟨line.toArray⟩ with
  | none => .finish (.error (.stream .notText))
  | some text =>
    let source := Text.stripEnding text.toList
    if source.isEmpty || Text.occurs farewell source then .finish (.ok ())
    else .answer (String.ofList source)

/-- Goes on with the lines that are left, behind the effects so far. -/
def proceed (session : Session) (prompt : String) :
    List (List UInt8) → Array Effect → Transcript Failure Unit
  | [], done => ⟨done.push (.print prompt), .ok ()⟩
  | line :: rest, done =>
    let asked := done ++ #[.print prompt, .consume line.length]
    match turn line with
    | .finish result => ⟨asked, result⟩
    | .answer source => proceed session prompt rest (asked ++ answer session source)

theorem proceed_append (session : Session) (prompt : String) (lines : List (List UInt8))
    (done : Array Effect) :
    proceed session prompt lines done =
      ⟨done ++ (proceed session prompt lines #[]).effects,
        (proceed session prompt lines #[]).result⟩ := by
  induction lines generalizing done with
  | nil => simp [proceed]
  | cons line rest ih =>
    simp only [proceed]
    cases turn line with
    | finish result => simp
    | answer source =>
      dsimp only
      rw [ih, ih (#[] ++ _ ++ _)]
      simp

def run (settings : Settings) (input : List UInt8) : Transcript Failure Unit :=
  proceed (.start settings.ast) settings.prompt (Text.byteLines input)
    #[.print (greeting ++ "\n")]

end Reckoner.Dialogue
