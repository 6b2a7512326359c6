import Reckoner.Session.Dialogue
import Reckoner.Session.Script

/-! # The lines that a run comes to

Dialogues and scripts take their lines in order, and they keep the session that they began with: what
stands before a line decides whether the run comes to it, and nothing else about how it is evaluated.
-/
namespace Reckoner
set_option autoImplicit false

namespace Dialogue

/-- What is done about a line that is answered: it is asked for, taken, and answered. -/
def exchange (session : Session) (prompt : String) (part : List UInt8 × String) : List Effect :=
  .print prompt :: .consume part.1.length :: (answer session part.2).toList

theorem proceed_front {session : Session} {prompt : String} {front : List (List UInt8 × String)}
    (h : ∀ part ∈ front, turn part.1 = .answer part.2) (rest : List (List UInt8))
    (done : Array Effect) :
    proceed session prompt (front.map Prod.fst ++ rest) done =
      proceed session prompt rest (done ++ front.flatMap (exchange session prompt)) := by
  induction front generalizing done with
  | nil => simp
  | cons part front ih =>
    have hTurn := h part List.mem_cons_self
    have hEffects : done ++ #[.print prompt, .consume part.1.length] ++ answer session part.2 ++
        front.flatMap (exchange session prompt) =
          done ++ (part :: front).flatMap (exchange session prompt) :=
      Array.ext' (by simp [exchange])
    rw [List.map_cons, List.cons_append, proceed]
    simp only [hTurn]
    rw [ih (fun other hOther => h other (List.mem_cons_of_mem part hOther)), hEffects]

theorem exists_answers {front : List (List UInt8)}
    (h : ∀ line ∈ front, ∃ source, turn line = .answer source) :
    ∃ parts : List (List UInt8 × String), parts.map Prod.fst = front ∧
      ∀ part ∈ parts, turn part.1 = .answer part.2 := by
  induction front with
  | nil => exact ⟨[], rfl, by simp⟩
  | cons line front ih =>
    obtain ⟨source, hTurn⟩ := h line List.mem_cons_self
    obtain ⟨parts, rfl, hParts⟩ := ih fun other hOther => h other (List.mem_cons_of_mem line hOther)
    exact ⟨(line, source) :: parts, rfl, List.forall_mem_cons.mpr ⟨hTurn, hParts⟩⟩

end Dialogue

namespace Script

/-- A line that a script runs past: a blank one, or one with a value. -/
def Passed (session : Session) (line : List Char) : Prop :=
  Text.isBlankLine line = true ∨
    ∃ value, (session.evaluateLine (String.ofList line)).result = .ok value

/-- What is done about lines that are run past: blank ones are skipped, the others answered. -/
def passage (session : Session) (lines : List (List Char)) : List Effect :=
  (lines.filter fun line => !Text.isBlankLine line).flatMap fun line =>
    (Dialogue.answer session (String.ofList line)).toList

theorem passage_cons (session : Session) (line : List Char) (lines : List (List Char)) :
    passage session (line :: lines) = passage session [line] ++ passage session lines := by
  rw [passage, ← List.singleton_append, List.filter_append, List.flatMap_append]
  rfl

theorem passed_or_exists_failing (session : Session) (lines : List (List Char)) :
    (∀ line ∈ lines, Passed session line) ∨ ∃ front line rest e, lines = front ++ line :: rest ∧
      (∀ l ∈ front, Passed session l) ∧ Text.isBlankLine line = false ∧
      (session.evaluateLine (String.ofList line)).result = .error e := by
  induction lines with
  | nil => exact .inl (by simp)
  | cons line lines ih =>
    by_cases hLine : Passed session line
    · rcases ih with hAll | ⟨front, other, rest, e, rfl, hFront, hFails⟩
      · exact .inl (List.forall_mem_cons.mpr ⟨hLine, hAll⟩)
      · exact .inr ⟨line :: front, other, rest, e, rfl, List.forall_mem_cons.mpr ⟨hLine, hFront⟩, hFails⟩
    · obtain ⟨hBlank, hValue⟩ := not_or.mp hLine
      cases hResult : (session.evaluateLine (String.ofList line)).result with
      | ok value => exact absurd ⟨value, hResult⟩ hValue
      | error e => exact .inr ⟨[], line, lines, e, rfl, by simp, by simpa using hBlank, hResult⟩

theorem proceed_passed {session : Session} {line : List Char} (path : String)
    (h : Passed session line) (rest : List (List Char)) (number : Nat) (done : Array Effect) :
    proceed session path (line :: rest) number done =
      proceed session path rest (number + 1) (done ++ passage session [line]) := by
  cases hBlank : Text.isBlankLine line with
  | true => simp [proceed, passage, hBlank]
  | false =>
    obtain ⟨value, hValue⟩ := h.resolve_left (by simp [hBlank])
    have hEffects : (done ++ (session.evaluateLine (String.ofList line)).effects).push
        (.print (value.render ++ "\n")) = done ++ passage session [line] :=
      Array.ext' (by simp [passage, hBlank, Dialogue.answer, hValue])
    rw [proceed, if_neg (by simp [hBlank])]
    simp only [hValue]
    rw [hEffects]

theorem proceed_front {session : Session} {front : List (List Char)} (path : String)
    (h : ∀ line ∈ front, Passed session line) (rest : List (List Char)) (number : Nat)
    (done : Array Effect) :
    proceed session path (front ++ rest) number done =
      proceed session path rest (number + front.length) (done ++ passage session front) := by
  induction front generalizing number done with
  | nil => simp [passage]
  | cons line front ih =>
    have hNumber : number + 1 + front.length = number + (line :: front).length := by
      rw [List.length_cons]
      omega
    have hEffects : done ++ passage session [line] ++ passage session front =
        done ++ passage session (line :: front) :=
      Array.ext' (by simp [passage_cons session line front])
    rw [List.cons_append, proceed_passed path (h line List.mem_cons_self),
      ih (fun l hl => h l (List.mem_cons_of_mem line hl)), hNumber, hEffects]

section Run

variable {settings : Settings} {text : String} {front rest : List (List Char)} {line : List Char}
  (path : String)

theorem run_front (hLines : Text.fileLines text.toList = front ++ rest)
    (hFront : ∀ l ∈ front, Passed (.start settings.ast) l) :
    run settings path text = proceed (.start settings.ast) path rest (front.length + 1)
      (passage (.start settings.ast) front).toArray := by
  rw [run, hLines, proceed_front path hFront, Nat.add_comm]
  simp

theorem exists_run_passed (hLines : Text.fileLines text.toList = front ++ line :: rest)
    (hFront : ∀ l ∈ front, Passed (.start settings.ast) l)
    (hLine : Passed (.start settings.ast) line) :
    ∃ effects, run settings path text =
      proceed (.start settings.ast) path rest (front.length + 2) effects := by
  rw [run_front path hLines hFront, proceed_passed path hLine]
  exact ⟨_, rfl⟩

theorem run_of_passed (h : ∀ l ∈ Text.fileLines text.toList, Passed (.start settings.ast) l) :
    run settings path text =
      ⟨(passage (.start settings.ast) (Text.fileLines text.toList)).toArray, .ok ()⟩ := by
  rw [run_front path (List.append_nil _).symm h, proceed]

/-- The first line that a script does not run past ends it, and nothing is done about the rest. -/
theorem run_of_error {e : LineError} (hLines : Text.fileLines text.toList = front ++ line :: rest)
    (hFront : ∀ l ∈ front, Passed (.start settings.ast) l) (hBlank : Text.isBlankLine line = false)
    (hError : ((Session.start settings.ast).evaluateLine (String.ofList line)).result = .error e) :
    run settings path text =
      ⟨(passage (.start settings.ast) front).toArray ++
        ((Session.start settings.ast).evaluateLine (String.ofList line)).effects,
        .error (.inFile path (front.length + 1) e)⟩ := by
  rw [run_front path hLines hFront, proceed, if_neg (by simp [hBlank])]
  simp only [hError]

theorem result_run_of_error {e : LineError}
    (hLines : Text.fileLines text.toList = front ++ line :: rest)
    (hFront : ∀ l ∈ front, Passed (.start settings.ast) l) (hBlank : Text.isBlankLine line = false)
    (hError : ((Session.start settings.ast).evaluateLine (String.ofList line)).result = .error e) :
    (run settings path text).result = .error (.inFile path (front.length + 1) e) := by
  rw [run_of_error path hLines hFront hBlank hError]

theorem passed_of_ok (h : (run settings path text).result = .ok ()) :
    ∀ l ∈ Text.fileLines text.toList, Passed (.start settings.ast) l := by
  rcases passed_or_exists_failing (.start settings.ast) (Text.fileLines text.toList) with
    hAll | ⟨front, line, rest, e, hLines, hFront, hBlank, hError⟩
  · exact hAll
  · rw [result_run_of_error path hLines hFront hBlank hError] at h
    cases h

end Run

end Script
end Reckoner
