import Reckoner.Proofs.Evaluation.FirstUnbound
import Reckoner.Proofs.Scanning.Cut
import Reckoner.Proofs.Session.FirstFailure

/-! # Scripts that can be typed in

A script without blank lines that runs to its end may as well be typed in line by line: the dialogue
prints what the script prints. The two take different things off the end of a line and end for different
reasons, but a line with a value holds neither a carriage return nor a name, hence no farewell.
-/
namespace Reckoner
set_option autoImplicit false

open Alphabet

theorem HasWords.mem_source {source : List Char} {words : List Word} (h : HasWords source words)
    {c : Char} (hc : c ∈ source) : isBlank c = true ∨ ∃ w ∈ words, c ∈ w.text := by
  obtain ⟨lead, parts, hCut, rfl⟩ := h
  exact hCut.mem_source hc

theorem Word.Fits.ne_of_mem {w : Word} (h : w.Fits) (hKind : w.kind ≠ .identifier) {c : Char}
    (hc : c ∈ w.text) : c ≠ '\r' ∧ c ≠ 'x' := by
  rcases w with ⟨kind, text⟩
  constructor
  · rintro rfl
    rcases Token.Kind.Fits.cases h with ⟨_, _, hDigits⟩ | ⟨_, _, _, hLetters⟩ |
      ⟨d, rfl, hMark, _⟩
    · cases hDigits _ hc
    · cases hLetters _ hc
    · obtain rfl := List.mem_singleton.mp hc
      cases hMark
  · rintro rfl
    cases kind with
    | number => cases h.2 _ hc
    | identifier => exact hKind rfl
    | var | null | assign | openParen | closeParen =>
      rw [show text = _ from h] at hc
      simp at hc
    | operator =>
      obtain ⟨op, rfl⟩ := h
      cases op <;> simp [Operator.symbol] at hc
    | string | endOfInput => exact h

namespace Session

/-- A line with a value has no names in it. -/
theorem exists_tokens_of_outcome {source : String} {value : Value} (h : outcome source = .ok value) :
    ∃ tokens, tokenize source = .ok tokens ∧ ∀ t ∈ tokens, t.kind ≠ .identifier := by
  unfold outcome at h
  split at h
  · cases h
  · rename_i p hParse
    obtain ⟨tokens, hTokens, hDecides⟩ := decides_evaluate_of_parse hParse
    have hFails := failsAtFirst_of_decides (hDecides ((start false).store.get (start false).root))
    rw [lacks_start false] at hFails
    refine ⟨tokens, hTokens, ?_⟩
    intro t ht hKind
    -- the session binds nothing, so any name is a fault
    obtain ⟨e, hError⟩ := (hFails.mapError LineError.eval).fails_iff.mpr ⟨t, ht, hKind⟩
    cases h.symm.trans hError

theorem ne_of_outcome {source : String} {value : Value} (h : outcome source = .ok value) {c : Char}
    (hc : c ∈ source.toList) : c ≠ '\r' ∧ c ≠ 'x' := by
  obtain ⟨tokens, hTokens, hNames⟩ := exists_tokens_of_outcome h
  obtain ⟨ts, p, rfl, hWords⟩ := exists_hasWords_of_tokenize hTokens
  rcases hWords.mem_source hc with hBlank | ⟨w, hw, hText⟩
  · rcases (isBlank_iff c).mp hBlank with rfl | rfl | rfl <;> simp
  · have hFits := hWords.fits w hw
    obtain ⟨t, ht, rfl⟩ := List.mem_map.mp hw
    exact hFits.ne_of_mem (hNames t (List.mem_append_left _ ht)) hText

end Session

namespace Script

/-- What a script without blank lines has printed when it has run to its end. -/
theorem run_of_ok {settings : Settings} {path source : String}
    (hLines : ∀ line ∈ Text.fileLines source.toList, Text.isBlankLine line = false)
    (h : (run settings path source).result = .ok ()) :
    (∀ line ∈ Text.fileLines source.toList, ∃ value,
        Session.outcome (String.ofList line) = .ok value) ∧
      ((run settings path source).play {}).console.out.written =
        (String.join (((Text.fileLines source.toList).map String.ofList).map fun text =>
          Session.treeText settings.ast text ++ Session.valueText text)).toUTF8 := by
  have hPassed := passed_of_ok path h
  have hAll : (Text.fileLines source.toList).filter (fun line => !Text.isBlankLine line) =
      Text.fileLines source.toList :=
    List.filter_eq_self.mpr fun line hLine => by simp [hLines line hLine]
  constructor
  · intro line hLine
    have hEither := (passed_start_iff _ _).mp (hPassed line hLine)
    exact hEither.resolve_left (by simp [hLines line hLine])
  · rw [(play_of_passed path hPassed).2, printed, hAll, List.map_map]
    rfl

end Script

/-- A line of a file that has a value, typed with its line ending, asks for the same. -/
theorem question_of_outcome {line : List Char} {value : Value}
    (hLine : ∀ c ∈ line.dropLast, (c == '\n') = false)
    (hBlank : Text.isBlankLine (Text.chopNewline line) = false)
    (h : Session.outcome (String.ofList (Text.chopNewline line)) = .ok value) :
    Dialogue.Question (Text.encode (String.ofList line))
      (String.ofList (Text.chopNewline line)) := by
  have hChars : ∀ c ∈ Text.chopNewline line, c ≠ '\r' ∧ c ≠ 'x' := by
    intro c hc
    exact Session.ne_of_outcome h (by rwa [String.toList_ofList])
  obtain ⟨ending, hEnding, hAll⟩ := Text.exists_ending_of_chopNewline line
  refine ⟨⟨ending, ?_, hAll⟩, ?_, ?_, ?_⟩
  · rw [String.toList_ofList, ← hEnding]
  · rw [String.toList_ofList]
    intro c hc
    have hMem := List.mem_of_getLast? hc
    refine ⟨(hChars c hMem).1, ?_⟩
    rintro rfl
    exact Text.newline_notMem_chopNewline hLine hMem
  · intro hEmpty
    rw [String.ofList_eq_empty_iff.mp hEmpty] at hBlank
    cases hBlank
  · rw [String.toList_ofList]
    intro hInfix
    exact (hChars 'x' (hInfix.subset (by simp))).2 rfl

/-- If all lines of a text have values, a dialogue over the text answers all of them. -/
theorem exists_questions {source : String}
    (hLines : ∀ line ∈ Text.fileLines source.toList, Text.isBlankLine line = false)
    (hValues : ∀ line ∈ Text.fileLines source.toList, ∃ value,
      Session.outcome (String.ofList line) = .ok value) :
    ∃ front : List (List UInt8 × String),
      Text.byteLines (Text.encode source) = front.map Prod.fst ++ [] ∧
      front.map Prod.snd = (Text.fileLines source.toList).map String.ofList ∧
      ∀ part ∈ front, Dialogue.turn part.1 = .answer part.2 := by
  have hSplit := Text.splitAfter_pieces (· == '\n') source.toList
  refine ⟨(Text.pieces (· == '\n') source.toList).map fun line =>
    (Text.encode (String.ofList line), String.ofList (Text.chopNewline line)), ?_, ?_, ?_⟩
  · rw [Text.byteLines_encode, List.append_nil, List.map_map]
    rfl
  · rw [Text.fileLines, List.map_map, List.map_map]
    rfl
  · intro part hPart
    obtain ⟨line, hLine, rfl⟩ := List.mem_map.mp hPart
    have hFile : Text.chopNewline line ∈ Text.fileLines source.toList := List.mem_map_of_mem hLine
    obtain ⟨value, hValue⟩ := hValues _ hFile
    apply Dialogue.turn_eq_answer_iff.mpr
    exact question_of_outcome (hSplit.forall_dropLast line hLine) (hLines _ hFile) hValue

theorem join_errorText_eq_empty {texts : List String}
    (h : ∀ text ∈ texts, ∃ value, Session.outcome text = .ok value) :
    String.join (texts.map Session.errorText) = "" := by
  induction texts with
  | nil => simp
  | cons text texts ih =>
    obtain ⟨value, hValue⟩ := h text List.mem_cons_self
    have hNone : Session.errorText text = "" := by rw [Session.errorText, hValue]
    rw [List.map_cons, String.join_cons, hNone, ih fun t ht => h t (List.mem_cons_of_mem text ht)]
    rfl

/-- A script without blank lines that runs to its end prints what a dialogue without a prompt prints
behind its greeting, when the text of the script is its input. -/
theorem dialogue_prints_script {source : String} {settings : Settings} {path : String}
    (hLines : ∀ line ∈ Text.fileLines source.toList, Text.isBlankLine line = false)
    (hScript : ((Script.run settings path source).play {}).result = .ok ()) :
    let script := (Script.run settings path source).play {}
    let dialogue := (Dialogue.run { settings with prompt := "" } (Text.encode source)).play {}
    dialogue.result = .ok () ∧ dialogue.console.err.written = .empty ∧
      dialogue.console.consumed = (Text.encode source).length ∧
      dialogue.console.out.written = "Axle v0.1\n".toUTF8 ++ script.console.out.written := by
  intro script dialogue
  rw [Transcript.play_unlimited] at hScript
  obtain ⟨hValues, hPrinted⟩ := Script.run_of_ok hLines hScript
  obtain ⟨front, hBytes, hTexts, hFront⟩ := exists_questions hLines hValues
  obtain ⟨hOut, hErr, hConsumed⟩ :=
    Dialogue.console_run { settings with prompt := "" } hBytes hFront (by simp)
  have hResult := (Dialogue.result_run { settings with prompt := "" } hBytes hFront (by simp)).2
  have hSource : (front.map Prod.fst).flatten = Text.encode source := by
    rw [← List.append_nil (front.map Prod.fst), ← hBytes]
    exact (Text.splitAfter_pieces (· == 10) (Text.encode source)).flatten
  -- what either of them prints is put together from the lines of the text
  have hEach : ∀ f : String → String, front.map (fun part => f part.2) =
      ((Text.fileLines source.toList).map String.ofList).map f := by
    intro f
    rw [← hTexts, List.map_map]
    rfl
  refine ⟨?_, ?_, ?_, ?_⟩
  · simp only [dialogue, Transcript.play_unlimited]
    exact hResult (by simp)
  · rw [hEach, join_errorText_eq_empty (by simpa using hValues)] at hErr
    exact hErr
  · simpa [hSource] using hConsumed
  · rw [hPrinted, ← hEach]
    simpa [Dialogue.greeting, ← String.toByteArray_append] using hOut

/-- A line of a file may end in a carriage return and a newline, and the last one without either. -/
theorem dialogue_prints_script_endings :
    let settings : Settings := { ast := true }
    let source := "null\r\n(null + null)"
    let script := (Script.run settings "lines" source).play {}
    let dialogue := (Dialogue.run { settings with prompt := "" } (Text.encode source)).play {}
    script.result = .ok () ∧ dialogue.result = .ok () ∧ dialogue.console.err.written = .empty ∧
      dialogue.console.consumed = (Text.encode source).length ∧
      dialogue.console.out.written = "Axle v0.1\n".toUTF8 ++ script.console.out.written := by
  intro settings source
  have hFile : Text.fileLines source.toList = ["null".toList, "(null + null)".toList] := by cbv
  have hLines : ∀ line ∈ Text.fileLines source.toList, Text.isBlankLine line = false := by
    rw [hFile]
    decide
  have hRun : (Script.run settings "lines" source).result = .ok () := by cbv
  have hResult : ((Script.run settings "lines" source).play {}).result = .ok () := by
    rw [Transcript.play_unlimited, hRun]
  exact ⟨hResult, dialogue_prints_script hLines hResult⟩

end Reckoner
