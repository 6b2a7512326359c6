import Reckoner.Proofs.Evaluation.Steps
import Reckoner.Proofs.Session.ReadLoop

/-! # The log of a dialogue

The log accounts for the lines that are answered, one after the other. About each line it tells how far
the line came: the number of its tokens, the number of its statements, the operations that met a null,
and last its value or why it has none.
-/
namespace Reckoner
set_option autoImplicit false

namespace Session

/-- The number of tokens, the closing one included, of a line without illegal characters. -/
def scanning (source : String) : List Event :=
  match tokenize source with
  | .ok tokens => [.tokenized tokens.length]
  | .error _ => []

/-- The events of the operations that are finished in front of the first fault and have met a null. -/
def notes (s : Session) (p : Program) : List Event :=
  (s.store.finished s.root (Expr.stepsAll p.body)).filterMap (Expr.note? (s.store.get s.root))

/-- The number of statements of a line that parses, and then the events of its operations. -/
def parsing (s : Session) (source : String) : List Event :=
  match Program.parse source with
  | .ok p => .parsed p.body.length :: s.notes p
  | .error _ => []

def verdict (s : Session) (source : String) : Event :=
  match (s.evaluateLine source).result with
  | .ok value => .evaluated value
  | .error e => .lineFailed e.message

def log (s : Session) (source : String) : List Event :=
  scanning source ++ (s.parsing source ++ [s.verdict source])

end Session

/-- What the error output says about an event. -/
def Event.complaint : Event → String
  | .lineFailed message => "Error: " ++ message ++ "\n"
  | .tokenized _ | .parsed _ | .absorbed _ _ _ | .evaluated _ => ""

def Event.isAbsorbed : Event → Bool
  | .absorbed _ _ _ => true
  | .tokenized _ | .parsed _ | .evaluated _ | .lineFailed _ => false

theorem flatMap_logged_record (events : List Event) :
    (events.map Effect.record).flatMap Effect.logged = events := by
  induction events with
  | nil => rfl
  | cons event events ih => simp [ih]

namespace Dialogue

theorem log_answer (s : Session) (source : String) :
    (answer s source).toList.flatMap Effect.logged = s.log source := by
  simp only [answer, Session.log, Session.scanning, Session.parsing, Session.verdict]
  cases hTokens : tokenize source with
  | error e =>
    have hParse : Program.parse source = .error (.scan e) := by rw [Program.parse, hTokens]
    simp [Session.evaluateLine, hTokens, hParse]
  | ok tokens =>
    have hParse : Program.parse source = Program.ofTokens tokens := by rw [Program.parse, hTokens]
    cases hProgram : Program.ofTokens tokens with
    | error e => simp [Session.evaluateLine, hTokens, hParse, hProgram]
    | ok p =>
      rw [hProgram] at hParse
      have hTrace : p.toExpr.trace (s.store.get s.root) = s.notes p ++ _ := trace_of_parse hParse
      simp only [Session.evaluateLine, hTokens, hParse, hProgram, Expr.evaluate_eq, hTrace]
      -- the tree that is shown, if it is, is not logged
      cases p.toExpr.eval (s.store.get s.root) with
      | ok value => cases s.ast <;> simp [flatMap_logged_record, Except.mapError, Except.toOption]
      | error e => cases s.ast <;> simp [flatMap_logged_record, Except.mapError, Except.toOption]

end Dialogue

namespace Session

theorem exists_absorbed_of_mem_notes {s : Session} {p : Program} {event : Event}
    (h : event ∈ s.notes p) : ∃ op a b, event = .absorbed op a b := by
  obtain ⟨x, _, hNote⟩ := List.mem_filterMap.mp h
  cases x with
  | binary op left right =>
    simp only [Expr.note?] at hNote
    split at hNote
    · split at hNote
      · exact ⟨op, _, _, (Option.some.inj hNote).symm⟩
      · cases hNote
    · cases hNote
  | _ => cases hNote

theorem join_complaint_eq_empty {events : List Event} (h : ∀ event ∈ events, event.complaint = "") :
    String.join (events.map Event.complaint) = "" := by
  induction events with
  | nil => rfl
  | cons event events ih =>
    rw [List.map_cons, String.join_cons, h event List.mem_cons_self,
      ih fun other hOther => h other (List.mem_cons_of_mem event hOther)]
    rfl

theorem join_complaint_log (ast : Bool) (source : String) :
    String.join (((start ast).log source).map Event.complaint) = errorText source := by
  have hScanning : ∀ event ∈ scanning source, event.complaint = "" := by
    rw [scanning]
    cases tokenize source <;> simp [Event.complaint]
  have hParsing : ∀ event ∈ (start ast).parsing source, event.complaint = "" := by
    rw [parsing]
    cases Program.parse source with
    | error e => simp
    | ok p =>
      refine List.forall_mem_cons.mpr ⟨rfl, ?_⟩
      intro event hEvent
      obtain ⟨op, a, b, rfl⟩ := exists_absorbed_of_mem_notes hEvent
      rfl
  rw [log, List.map_append, List.map_append, String.join_append, String.join_append,
    join_complaint_eq_empty hScanning, join_complaint_eq_empty hParsing, verdict,
    (evaluateLine_start ast source).1, errorText]
  cases outcome source <;> simp [Event.complaint]

theorem countP_isAbsorbed_log {s : Session} {source : String} {p : Program} {value : Value}
    (hParse : Program.parse source = .ok p) (hValue : (s.evaluateLine source).result = .ok value) :
    (s.log source).countP Event.isAbsorbed =
      p.toExpr.preorder.toList.countP (Expr.isNullOperation (s.store.get s.root)) := by
  have hNotes : (s.notes p).countP Event.isAbsorbed = (s.notes p).length := by
    apply List.countP_eq_length.mpr
    intro event hEvent
    obtain ⟨op, a, b, rfl⟩ := exists_absorbed_of_mem_notes hEvent
    rfl
  have hScanning : (scanning source).countP Event.isAbsorbed = 0 := by
    rw [scanning]
    cases tokenize source <;> rfl
  have hEval : ∃ v, p.toExpr.eval (s.store.get s.root) = .ok v := by
    rw [result_evaluateLine_eq, hParse] at hValue
    simp only [Expr.evaluate_eq] at hValue
    cases hEval : p.toExpr.eval (s.store.get s.root) with
    | ok v => exact ⟨v, rfl⟩
    | error e =>
      rw [hEval] at hValue
      cases hValue
  obtain ⟨v, hEval⟩ := hEval
  have hCount := length_notes_of_ok hEval
  rw [← notes] at hCount
  simp [log, verdict, hValue, parsing, hParse, hScanning, hNotes, hCount, Event.isAbsorbed]

end Session

namespace Dialogue

section Run

variable (settings : Settings) {input : List UInt8} {front : List (List UInt8 × String)}
  {rest : List (List UInt8)}

theorem log_run (hLines : Text.byteLines input = front.map Prod.fst ++ rest)
    (hFront : ∀ part ∈ front, turn part.1 = .answer part.2)
    (hRest : ∀ line ∈ rest.head?, ∃ result, turn line = .finish result) :
    ((run settings input).play {}).console.log.toList =
      front.flatMap fun part => (Session.start settings.ast).log part.2 := by
  have hExchange : ∀ part, (exchange (.start settings.ast) settings.prompt part).flatMap
      Effect.logged = (Session.start settings.ast).log part.2 := by
    intro part
    rw [← log_answer]
    simp [exchange]
  have hTail : (rest.head?.toList.map fun line => Effect.consume line.length).flatMap
      Effect.logged = [] := by
    cases rest.head? <;> rfl
  rw [Transcript.play_unlimited, effects_run settings hLines hFront hRest]
  simp [Console.after, List.flatMap_assoc, hExchange, hTail]

end Run

/-- The log of a dialogue is the log of its answered lines, in order; the messages of failures in it are what
the error output says. About a line that has a value, the log tells of as many operations as come to null
in the tree of the line. -/
theorem run_logs_each_line (settings : Settings) (input : List UInt8) :
    ∃ (front : List (List UInt8 × String)) (rest : List (List UInt8)),
      Text.SplitAfter (· == 10) input (front.map Prod.fst ++ rest) ∧
      (∀ part ∈ front, Question part.1 part.2) ∧
      (∀ line ∈ rest.head?, ∀ source, ¬Question line source) ∧
      let session := Session.start settings.ast
      let console := ((run settings input).play {}).console
      console.log.toList = front.flatMap (fun part => session.log part.2) ∧
      console.err.written = (String.join (console.log.toList.map Event.complaint)).toUTF8 ∧
      ∀ part ∈ front, ∀ p value, Program.parse part.2 = .ok p →
        Session.outcome part.2 = .ok value →
        (session.log part.2).countP Event.isAbsorbed =
          p.toExpr.preorder.toList.countP (Expr.isNullOperation (session.store.get session.root)) := by
  obtain ⟨front, rest, hLines, hFront, hRest⟩ := exists_front (Text.byteLines input)
  obtain ⟨_, hErr, _⟩ := console_run settings hLines hFront hRest
  have hLog := log_run settings hLines hFront hRest
  refine ⟨front, rest, ?_, ?_, ?_, hLog, ?_, ?_⟩
  · rw [← hLines]
    exact Text.splitAfter_pieces _ input
  · intro part hPart
    exact turn_eq_answer_iff.mp (hFront part hPart)
  · intro line hLine source hQuestion
    obtain ⟨result, hFinish⟩ := hRest line hLine
    rw [turn_eq_answer_iff.mpr hQuestion] at hFinish
    cases hFinish
  · rw [hErr, hLog, join_map_flatMap]
    simp only [Session.join_complaint_log]
  · intro part hPart p value hParse hOutcome
    rw [← (Session.evaluateLine_start settings.ast part.2).1] at hOutcome
    exact Session.countP_isAbsorbed_log hParse hOutcome

end Dialogue
end Reckoner
