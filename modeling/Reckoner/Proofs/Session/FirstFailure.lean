import Reckoner.Proofs.Parsing.SourceErrors
import Reckoner.Proofs.Scanning.Placement
import Reckoner.Proofs.Session.ReadLoop

/-! # Where a script stops

A script runs past its blank lines and past the lines with values, and the first line of another kind
ends it: what has been printed stays, and the failure holds the number of the line in the file. A line is
parsed by itself and as it stands, so every position in its error is on a first line, and its column
counts the characters of the line from the left, blanks included.
-/
namespace Reckoner
set_option autoImplicit false

/-- The position behind a number of characters on a first line. -/
structure Position.IsColumn (p : Position) (count : Nat) : Prop where
  line_eq : p.line = 1
  column_eq : p.column.toInt = 1 + count

/-- The token is a word of the line, between the columns where the word stands, or closes the line. -/
inductive Token.StandsIn (line : List Char) : Token → Prop where
  | word {t : Token} {pre post : List Char} : line = pre ++ (t.lexeme.toList ++ post) →
      t.start.IsColumn pre.length → t.stop.IsColumn (pre ++ t.lexeme.toList).length → StandsIn line t
  | closing {p : Position} : p.IsColumn line.length → StandsIn line (.endAt p)

/-- What the error complains about stands in the line, in the column that the error gives. -/
inductive ParseError.PointsInto (line : List Char) : ParseError → Prop where
  | scan {e : ScanError} {pre post : List Char} : line = pre ++ e.character :: post →
      e.position.IsColumn pre.length → PointsInto line (.scan e)
  | expected {kind : Token.Kind} {t : Token} : t.StandsIn line → PointsInto line (.expected kind t)
  | unexpected {t : Token} : t.StandsIn line → PointsInto line (.unexpected t)

section OneLine

variable {source : String} (hNewline : '\n' ∉ source.toList) (hShort : source.length < 2 ^ 31 - 1)

include hNewline hShort

theorem Position.isColumn_after {pre : List Char} (h : pre <+: source.toList) :
    (Position.first.after pre).IsColumn pre.length := by
  rw [← String.length_toList] at hShort
  have hBehind : (Position.first.after pre).IsBehind pre := isBehind_after_of_prefix h hShort
  obtain ⟨hLine, hColumn⟩ := hBehind.of_newline_notMem fun hMem => hNewline (h.subset hMem)
  exact ⟨hLine, hColumn⟩

theorem Token.standsIn_of_tokenize {tokens : List Token} (h : tokenize source = .ok tokens) {t : Token}
    (ht : t ∈ tokens) : t.StandsIn source.toList := by
  obtain ⟨ts, hTokens, hFinds⟩ := exists_tokenize_of_legal (forall_isLegal_of_tokenize h)
  obtain rfl := Except.ok.inj (h.symm.trans hTokens)
  rcases List.mem_append.mp ht with hWord | hLast
  · obtain ⟨front, back, rfl⟩ := List.append_of_mem hWord
    obtain ⟨pre, post, hSource, _, _, _, hStart, hStop, _⟩ := hFinds.exists_place [] front
    have hThrough : pre ++ t.lexeme.toList <+: source.toList := ⟨post ++ [], by simp [hSource]⟩
    refine .word hSource ?_ ?_
    · rw [hStart]
      exact Position.isColumn_after hNewline hShort ((List.prefix_append pre _).trans hThrough)
    · rw [hStop]
      exact Position.isColumn_after hNewline hShort hThrough
  · obtain rfl := List.mem_singleton.mp hLast
    exact .closing (Position.isColumn_after hNewline hShort (List.prefix_refl _))

theorem pointsInto_of_parse_error {e : ParseError} (h : Program.parse source = .error e) :
    e.PointsInto source.toList := by
  rcases parse_error_cases h with ⟨e', hTokens, rfl⟩ | ⟨tokens, hTokens, t, ht, rfl | rfl⟩
  · rcases legal_or_exists_illegal source.toList with
      hLegal | ⟨pre, c, post, hSource, hLegal, hIllegal⟩
    · obtain ⟨ts, hOk, _⟩ := exists_tokenize_of_legal hLegal
      rw [hOk] at hTokens
      cases hTokens
    · rw [tokenize_of_illegal hSource hLegal hIllegal] at hTokens
      cases hTokens
      exact .scan hSource (Position.isColumn_after hNewline hShort ⟨_, hSource.symm⟩)
  · exact .unexpected (Token.standsIn_of_tokenize hNewline hShort hTokens ht)
  · exact .expected (Token.standsIn_of_tokenize hNewline hShort hTokens ht)

end OneLine

theorem Session.parse_of_outcome {source : String} {e : ParseError}
    (h : outcome source = .error (.parse e)) : Program.parse source = .error e := by
  unfold outcome at h
  split at h
  · rename_i e' hParse
    cases h
    exact hParse
  · -- what evaluation complains about is no error of parsing
    rename_i p _
    have hResult : ∀ result : Except EvalError Value,
        result.mapError LineError.eval ≠ .error (.parse e) := by
      rintro (error | value) hError <;> cases hError
    exact absurd h (hResult _)

namespace Script

/-- What a script prints about lines that it runs past. -/
def printed (ast : Bool) (lines : List (List Char)) : String :=
  String.join ((lines.filter fun line => !Text.isBlankLine line).map fun line =>
    Session.treeText ast (String.ofList line) ++ Session.valueText (String.ofList line))

theorem passed_start_iff (ast : Bool) (line : List Char) : Passed (.start ast) line ↔
    Text.isBlankLine line = true ∨ ∃ value, Session.outcome (String.ofList line) = .ok value := by
  rw [Passed, (Session.evaluateLine_start ast _).1]

theorem outputOf_passage (ast : Bool) (lines : List (List Char)) :
    outputOf (passage (.start ast) lines) = printed ast lines := by
  rw [passage, outputOf_flatMap, printed]
  simp only [Dialogue.answer_start]

section Play

variable {settings : Settings} {source : String} (path : String)

theorem play_of_passed
    (h : ∀ line ∈ Text.fileLines source.toList, Passed (.start settings.ast) line) :
    let report := (run settings path source).play {}
    report.result = .ok () ∧ report.console.out.written =
      (printed settings.ast (Text.fileLines source.toList)).toUTF8 := by
  simp only [Transcript.play_unlimited, run_of_passed path h, Console.after, outputOf_passage]
  simp

theorem play_of_error {front rest : List (List Char)} {line : List Char} {e : LineError}
    (hLines : Text.fileLines source.toList = front ++ line :: rest)
    (hFront : ∀ l ∈ front, Passed (.start settings.ast) l) (hBlank : Text.isBlankLine line = false)
    (hError : ((Session.start settings.ast).evaluateLine (String.ofList line)).result = .error e) :
    let report := (run settings path source).play {}
    report.result = .error (.inFile path (front.length + 1) e) ∧ report.console.out.written =
      (printed settings.ast front ++ Session.treeText settings.ast (String.ofList line)).toUTF8 := by
  obtain ⟨_, hTree, _⟩ := Session.evaluateLine_start settings.ast (String.ofList line)
  simp only [Transcript.play_unlimited, run_of_error path hLines hFront hBlank hError, Console.after,
    Array.toList_append, outputOf_append, outputOf_passage, hTree]
  simp

end Play

/-- A script runs to its end and prints all values, or it stops at the first line that is not blank and
has no value: the failure is what that line comes to on its own, and behind the values of the lines
before it there is at most its tree. -/
theorem run_stops_at_first_failing_line (settings : Settings) (path source : String) :
    let lines := Text.fileLines source.toList
    let report := (run settings path source).play {}
    ((∀ line ∈ lines, Text.isBlankLine line = true ∨
        ∃ value, Session.outcome (String.ofList line) = .ok value) ∧
      report.result = .ok () ∧
      report.console.out.written = (printed settings.ast lines).toUTF8) ∨
    ∃ front line rest e, lines = front ++ line :: rest ∧
      (∀ l ∈ front, Text.isBlankLine l = true ∨
        ∃ value, Session.outcome (String.ofList l) = .ok value) ∧
      Text.isBlankLine line = false ∧ Session.outcome (String.ofList line) = .error e ∧
      report.result = .error (.inFile path (front.length + 1) e) ∧
      (line.length < 2 ^ 31 - 1 → ∀ error, e = .parse error → error.PointsInto line) ∧
      report.console.out.written =
        (printed settings.ast front ++ Session.treeText settings.ast (String.ofList line)).toUTF8 := by
  intro lines report
  rcases passed_or_exists_failing (.start settings.ast) lines with
    hAll | ⟨front, line, rest, e, hLines, hFront, hBlank, hError⟩
  · left
    exact ⟨fun line hLine => (passed_start_iff _ _).mp (hAll line hLine), play_of_passed path hAll⟩
  · right
    obtain ⟨hResult, hWritten⟩ := play_of_error path hLines hFront hBlank hError
    rw [(Session.evaluateLine_start settings.ast _).1] at hError
    refine ⟨front, line, rest, e, hLines, fun l hl => (passed_start_iff _ _).mp (hFront l hl), hBlank,
      hError, hResult, ?_, hWritten⟩
    rintro hShort error rfl
    have hMem : line ∈ lines := by simp [hLines]
    have hNewline : '\n' ∉ (String.ofList line).toList := by
      rw [String.toList_ofList]
      exact Text.newline_notMem_of_mem_fileLines hMem
    have hPoints := pointsInto_of_parse_error hNewline (by rwa [String.length_ofList])
      (Session.parse_of_outcome hError)
    rwa [String.toList_ofList] at hPoints

/-- A line of white space is skipped and yet counted, and the blank in front of a line counts for the
column of its error. -/
example : (run { ast := true } "lines" "null\n\u00a0\n (null\n)").result =
    .error (.inFile "lines" 3 (.parse (.expected .closeParen (.endAt ⟨1, 7⟩)))) := by
  cbv

end Script
end Reckoner
