import Reckoner.Proofs.Session.LineByLine
import Reckoner.Proofs.Text.Lines
import Reckoner.Proofs.Transcript.Unlimited

/-! # What a dialogue says

A dialogue goes through its lines until the first one that asks nothing. What it writes is put together
from its lines one by one, and for each line it is what the line comes to on its own: nothing passes
from one line to the next.
-/
namespace Reckoner
set_option autoImplicit false

namespace Session

/-- What a line comes to on its own, in a new frame that binds nothing. -/
def outcome (source : String) : Except LineError Value :=
  match Program.parse source with
  | .error e => .error (.parse e)
  | .ok p =>
    let (root, store) := Store.empty.newGlobal
    (p.toExpr.evaluate (store.get root)).result.mapError .eval

def treeText (ast : Bool) (source : String) : String :=
  match Program.parse source with
  | .ok p => if ast then p.display ++ "\n" else ""
  | .error _ => ""

def valueText (source : String) : String :=
  match outcome source with
  | .ok value => value.render ++ "\n"
  | .error _ => ""

def errorText (source : String) : String :=
  match outcome source with
  | .ok _ => ""
  | .error e => "Error: " ++ e.message ++ "\n"

theorem root_start (ast : Bool) : (start ast).root = 0 := rfl

theorem ast_start (ast : Bool) : (start ast).ast = ast := rfl

theorem evaluateLine_start (ast : Bool) (source : String) :
    let line := (start ast).evaluateLine source
    line.result = outcome source ∧ outputOf line.effects.toList = treeText ast source ∧
      complaintsOf line.effects.toList = "" ∧ takenBy line.effects.toList = 0 := by
  intro line
  cases hTokens : tokenize source with
  | error e =>
    have hParse : Program.parse source = .error (.scan e) := by rw [Program.parse, hTokens]
    simp [line, evaluateLine, hTokens, outcome, treeText, hParse]
  | ok tokens =>
    have hParse : Program.parse source = Program.ofTokens tokens := by rw [Program.parse, hTokens]
    cases hProgram : Program.ofTokens tokens with
    | error e => simp [line, evaluateLine, hTokens, hProgram, outcome, treeText, hParse]
    | ok p =>
      rw [hProgram] at hParse
      simp only [line, evaluateLine, hTokens, hProgram, outcome, treeText, hParse, root_start]
      refine ⟨rfl, ?_⟩
      cases ast <;> simp [ast_start, silent_map_record]

end Session

namespace Dialogue

theorem answer_start (ast : Bool) (source : String) :
    let effects := (answer (.start ast) source).toList
    outputOf effects = Session.treeText ast source ++ Session.valueText source ∧
      complaintsOf effects = Session.errorText source ∧ takenBy effects = 0 := by
  intro effects
  obtain ⟨hResult, hOutput, hComplaints, hTaken⟩ := Session.evaluateLine_start ast source
  cases hOutcome : Session.outcome source with
  | ok value =>
    rw [hOutcome] at hResult
    simp [effects, answer, hResult, hOutput, hComplaints, hTaken, Session.valueText,
      Session.errorText, hOutcome]
  | error e =>
    rw [hOutcome] at hResult
    simp [effects, answer, hResult, hOutput, hComplaints, hTaken, Session.valueText,
      Session.errorText, hOutcome]

/-- `Question line source`: the line is the encoding of a text, and `source` is that text without the
carriage returns and newlines at its end, neither empty nor with the farewell in it. -/
structure Question (line : List UInt8) (source : String) : Prop where
  text : ∃ ending, line = Text.encode (String.ofList (source.toList ++ ending)) ∧
    ∀ c ∈ ending, c = '\r' ∨ c = '\n'
  last : ∀ c ∈ source.toList.getLast?, c ≠ '\r' ∧ c ≠ '\n'
  nonempty : source ≠ ""
  noFarewell : ¬['e', 'x', 'i', 't'] <:+: source.toList

theorem turn_of_forall_ne {line : List UInt8} (h : ∀ text, Text.encode text ≠ line) :
    turn line = .finish (.error (.stream .notText)) := by
  have hNone : String.fromUTF8? ⟨line.toArray⟩ = none :=
    Option.eq_none_iff_forall_ne_some.mpr fun text hText => h text (Text.fromUTF8?_eq_some_iff.mp hText)
  rw [turn, hNone]

theorem turn_encode (text : String) : turn (Text.encode text) =
    if (Text.stripEnding text.toList).isEmpty || Text.occurs farewell (Text.stripEnding text.toList)
    then .finish (.ok ()) else .answer (String.ofList (Text.stripEnding text.toList)) := by
  rw [turn, Text.fromUTF8?_eq_some_iff.mpr rfl]

theorem turn_eq_answer_iff {line : List UInt8} {source : String} :
    turn line = .answer source ↔ Question line source := by
  constructor
  · intro h
    by_cases hText : ∃ text, Text.encode text = line
    · obtain ⟨text, rfl⟩ := hText
      rw [turn_encode] at h
      split at h
      · cases h
      · rename_i hAsks
        cases h
        simp only [Bool.or_eq_true, not_or, Text.occurs_iff, List.isEmpty_iff] at hAsks
        obtain ⟨⟨ending, hLine, hEnding⟩, hLast⟩ :=
          Text.stripEnding_eq_iff.mp (Eq.refl (Text.stripEnding text.toList))
        refine ⟨⟨ending, ?_, hEnding⟩, ?_, ?_, ?_⟩
        · rw [String.toList_ofList, ← hLine, String.ofList_toList]
        · rwa [String.toList_ofList]
        · intro hEmpty
          exact hAsks.1 (String.ofList_eq_empty_iff.mp hEmpty)
        · rw [String.toList_ofList]
          exact hAsks.2
    · rw [turn_of_forall_ne (not_exists.mp hText)] at h
      cases h
  · rintro ⟨⟨ending, rfl, hEnding⟩, hLast, hNonempty, hNone⟩
    have hStrip : Text.stripEnding (source.toList ++ ending) = source.toList :=
      Text.stripEnding_eq_iff.mpr ⟨⟨ending, rfl, hEnding⟩, hLast⟩
    rw [turn_encode, String.toList_ofList, hStrip, if_neg, String.ofList_toList]
    simp only [Bool.or_eq_true, not_or, Text.occurs_iff, List.isEmpty_iff]
    exact ⟨fun hNil => hNonempty (String.toList_eq_nil_iff.mp hNil), hNone⟩

/-- The lines up to the first one that ends the dialogue. -/
theorem exists_front (lines : List (List UInt8)) :
    ∃ (front : List (List UInt8 × String)) (rest : List (List UInt8)),
      lines = front.map Prod.fst ++ rest ∧ (∀ part ∈ front, turn part.1 = .answer part.2) ∧
      ∀ line ∈ rest.head?, ∃ result, turn line = .finish result := by
  induction lines with
  | nil => exact ⟨[], [], rfl, by simp, by simp⟩
  | cons line lines ih =>
    cases hTurn : turn line with
    | answer source =>
      obtain ⟨front, rest, rfl, hFront, hRest⟩ := ih
      exact ⟨(line, source) :: front, rest, rfl, List.forall_mem_cons.mpr ⟨hTurn, hFront⟩, hRest⟩
    | finish result =>
      refine ⟨[], line :: lines, rfl, by simp, ?_⟩
      rintro _ ⟨⟩
      exact ⟨result, hTurn⟩

/-- `Replies settings input front line rest said`: the dialogue does all that a dialogue over the lines in
front does, which ends with a prompt; it takes the line, says `said` to it, and goes on with the rest. -/
def Replies (settings : Settings) (input : List UInt8) (front : List (List UInt8)) (line : List UInt8)
    (rest : List (List UInt8)) (said : Array Effect) : Prop :=
  let before := run settings front.flatten
  let after := proceed (.start settings.ast) settings.prompt rest #[]
  run settings input = ⟨before.effects.push (.consume line.length) ++ said ++ after.effects, after.result⟩

section Run

variable (settings : Settings) {input : List UInt8} {front : List (List UInt8 × String)}
  {rest : List (List UInt8)}

/-- The effects of a dialogue: the greeting, an exchange for each line that is answered, and the prompt
for the line that ends it, which is taken if there is one. -/
theorem effects_run (hLines : Text.byteLines input = front.map Prod.fst ++ rest)
    (hFront : ∀ part ∈ front, turn part.1 = .answer part.2)
    (hRest : ∀ line ∈ rest.head?, ∃ result, turn line = .finish result) :
    (run settings input).effects.toList = .print (greeting ++ "\n") ::
      front.flatMap (exchange (.start settings.ast) settings.prompt) ++
      .print settings.prompt :: rest.head?.toList.map (fun line => .consume line.length) := by
  rw [run, hLines, proceed_front hFront]
  cases rest with
  | nil => simp [proceed]
  | cons line rest =>
    obtain ⟨result, hTurn⟩ := hRest line rfl
    simp [proceed, hTurn]

/-- A line is answered in the session at the start, whatever was answered before it. -/
theorem replies_answer {line : List UInt8} {lines : List (List UInt8)} {source : String}
    (hSplit : Text.SplitAfter (· == 10) input (lines ++ line :: rest))
    (hLines : ∀ l ∈ lines, ∃ s, Question l s) (hLine : Question line source) :
    Replies settings input lines line rest (answer (.start settings.ast) source) := by
  have hTurn : turn line = .answer source := turn_eq_answer_iff.mpr hLine
  have hInput : Text.byteLines input = lines ++ line :: rest := hSplit.eq_pieces
  obtain ⟨front, rfl, hFront⟩ := exists_answers fun l hl => by
    simpa only [turn_eq_answer_iff] using hLines l hl
  have hFlatten : Text.byteLines (front.map Prod.fst).flatten = front.map Prod.fst ++ [] := by
    rw [List.append_nil]
    exact hSplit.front.eq_pieces
  have hBefore := effects_run settings hFlatten hFront (by simp)
  have hRun : run settings input = proceed (.start settings.ast) settings.prompt rest
      (#[Effect.print (greeting ++ "\n")] ++
        front.flatMap (exchange (.start settings.ast) settings.prompt) ++
        #[.print settings.prompt, .consume line.length] ++ answer (.start settings.ast) source) := by
    rw [run, hInput, proceed_front hFront, proceed]
    simp only [hTurn]
  rw [Replies, hRun, proceed_append]
  refine congrArg (Transcript.mk · _) (Array.ext' ?_)
  simp [hBefore]

theorem result_run (hLines : Text.byteLines input = front.map Prod.fst ++ rest)
    (hFront : ∀ part ∈ front, turn part.1 = .answer part.2)
    (hRest : ∀ line ∈ rest.head?, ∃ result, turn line = .finish result) :
    ((∃ line ∈ rest.head?, ∀ text, Text.encode text ≠ line) →
        (run settings input).result = .error (.stream .notText)) ∧
      ((∀ line ∈ rest.head?, ∃ text, Text.encode text = line) →
        (run settings input).result = .ok ()) := by
  rw [run, hLines, proceed_front hFront]
  constructor
  · rintro ⟨line, hLine, hNone⟩
    obtain ⟨rest, rfl⟩ := List.head?_eq_some_iff.mp hLine
    simp only [proceed, turn_of_forall_ne hNone]
  · intro hTexts
    cases rest with
    | nil => rfl
    | cons line rest =>
      obtain ⟨result, hTurn⟩ := hRest line rfl
      obtain ⟨text, rfl⟩ := hTexts line rfl
      simp only [proceed, hTurn]
      rw [turn_encode] at hTurn
      split at hTurn
      · exact (Turn.finish.inj hTurn).symm
      · cases hTurn

theorem exchange_start (ast : Bool) (prompt : String) (part : List UInt8 × String) :
    let effects := exchange (.start ast) prompt part
    outputOf effects = prompt ++ Session.treeText ast part.2 ++ Session.valueText part.2 ∧
      complaintsOf effects = Session.errorText part.2 ∧ takenBy effects = part.1.length := by
  intro effects
  obtain ⟨hOutput, hComplaints, hTaken⟩ := answer_start ast part.2
  simp [effects, exchange, hOutput, hComplaints, hTaken, String.append_assoc]

/-- What the streams hold behind a dialogue. -/
theorem console_run (hLines : Text.byteLines input = front.map Prod.fst ++ rest)
    (hFront : ∀ part ∈ front, turn part.1 = .answer part.2)
    (hRest : ∀ line ∈ rest.head?, ∃ result, turn line = .finish result) :
    let console := ((run settings input).play {}).console
    console.out.written = (greeting ++ "\n" ++ String.join (front.map fun part =>
        settings.prompt ++ Session.treeText settings.ast part.2 ++ Session.valueText part.2) ++
        settings.prompt).toUTF8 ∧
      console.err.written = (String.join (front.map fun part => Session.errorText part.2)).toUTF8 ∧
      console.consumed = (front.map Prod.fst ++ rest.head?.toList).flatten.length := by
  intro console
  have hExchange := exchange_start settings.ast settings.prompt
  have hTaken := takenBy_flatMap (fun part => (hExchange part).2.2) front
  have hTail : outputOf (rest.head?.toList.map fun line => .consume line.length) = "" ∧
      complaintsOf (rest.head?.toList.map fun line => .consume line.length) = "" ∧
      takenBy (rest.head?.toList.map fun line => .consume line.length) =
        rest.head?.toList.flatten.length := by
    cases rest.head? <;> simp
  simp only [console, Transcript.play_unlimited, effects_run settings hLines hFront hRest]
  refine ⟨?_, ?_, ?_⟩
  · simp [Console.after, outputOf_flatMap, hExchange, hTail, ByteArray.append_assoc]
  · simp [Console.after, complaintsOf_flatMap, hExchange, hTail]
  · simp only [Console.after, takenBy_append, takenBy_cons, hTaken, hTail, Effect.taken,
      List.flatten_append, List.length_append, Nat.zero_add]

end Run

/-- A dialogue answers the lines before the first one that is not text, is empty or holds the farewell,
each as it would be answered on its own, and takes its input up to that line. -/
theorem run_answers_each_line (settings : Settings) (input : List UInt8) :
    ∃ (front : List (List UInt8 × String)) (rest : List (List UInt8)),
      Text.SplitAfter (· == 10) input (front.map Prod.fst ++ rest) ∧
      (∀ part ∈ front, Question part.1 part.2) ∧
      (∀ line ∈ rest.head?, ∀ source, ¬Question line source) ∧
      let report := (run settings input).play {}
      report.console.out.written = (greeting ++ "\n" ++ String.join (front.map fun part =>
        settings.prompt ++ Session.treeText settings.ast part.2 ++ Session.valueText part.2) ++
        settings.prompt).toUTF8 ∧
      report.console.err.written = (String.join (front.map fun part =>
        Session.errorText part.2)).toUTF8 ∧
      report.console.consumed = (front.map Prod.fst ++ rest.head?.toList).flatten.length ∧
      ((∃ line ∈ rest.head?, ∀ text, Text.encode text ≠ line) →
        report.result = .error (.stream .notText)) ∧
      ((∀ line ∈ rest.head?, ∃ text, Text.encode text = line) → report.result = .ok ()) := by
  obtain ⟨front, rest, hLines, hFront, hRest⟩ := exists_front (Text.byteLines input)
  obtain ⟨hOut, hErr, hConsumed⟩ := console_run settings hLines hFront hRest
  obtain ⟨hNotText, hText⟩ := result_run settings hLines hFront hRest
  refine ⟨front, rest, ?_, ?_, ?_, hOut, hErr, hConsumed, ?_, ?_⟩
  · rw [← hLines]
    exact Text.splitAfter_pieces _ input
  · intro part hPart
    exact turn_eq_answer_iff.mp (hFront part hPart)
  · intro line hLine source hQuestion
    obtain ⟨result, hFinish⟩ := hRest line hLine
    rw [turn_eq_answer_iff.mpr hQuestion] at hFinish
    cases hFinish
  · rw [Transcript.play_unlimited]
    exact hNotText
  · rw [Transcript.play_unlimited]
    exact hText

end Dialogue
end Reckoner
