import Reckoner.Proofs.Parsing.Joining
import Reckoner.Proofs.Printing.ValueText
import Reckoner.Proofs.Session.Agreement

/-! # A script as one program

A newline ends a line of a script, and for the parser it is a blank like any other. When every line has
a value, no statement reaches beyond the end of its line: the text as a whole is parsed as the
statements of its lines, and its value is the one that the script prints last.
-/
namespace Reckoner
set_option autoImplicit false

open Alphabet Grammar

theorem isWhiteSpace_of_isBlank {c : Char} (h : isBlank c = true) : Text.isWhiteSpace c = true := by
  rcases (isBlank_iff c).mp h with rfl | rfl | rfl <;> rfl

theorem toNat_of_isWhiteSpace {c : Char} (h : Text.isWhiteSpace c = true) :
    c.toNat ≤ 32 ∨ 127 < c.toNat := by
  obtain ⟨range, hRange, hBounds⟩ := List.any_eq_true.mp h
  simp only [Bool.and_eq_true, decide_eq_true_eq] at hBounds
  have hRanges : ∀ r ∈ Text.whiteSpaceRanges, r.2 ≤ 32 ∨ 127 < r.1 := by decide
  have hSide := hRanges range hRange
  omega

theorem toNat_of_isLegal {c : Char} (h : isLegal c = true) :
    isBlank c = true ∨ (32 < c.toNat ∧ c.toNat ≤ 127) := by
  simp only [isLegal, Bool.or_eq_true] at h
  rcases h with ((hLetter | hDigit) | hMark) | hBlank
  · have hRanges : (decide (65 ≤ c.val ∧ c.val ≤ 90) ||
        decide (97 ≤ c.val) && decide (c.val ≤ 122)) = true := hLetter
    simp only [Bool.or_eq_true, Bool.and_eq_true, decide_eq_true_eq, UInt32.le_iff_toNat_le,
      UInt32.reduceToNat] at hRanges
    right
    rw [Char.toNat]
    omega
  · have hRange : (decide (48 ≤ c.val) && decide (c.val ≤ 57)) = true := hDigit
    simp only [Bool.and_eq_true, decide_eq_true_eq, UInt32.le_iff_toNat_le,
      UInt32.reduceToNat] at hRange
    right
    rw [Char.toNat]
    omega
  · have hMarks : ∀ d ∈ ['(', ')', '+', '-', '*', '/', '%', '='], 32 < d.toNat ∧ d.toNat ≤ 127 := by
      simp
    exact .inr (hMarks c (List.contains_iff_mem.mp hMark))
  · exact .inl hBlank

theorem isBlank_of_isWhiteSpace {c : Char} (hLegal : isLegal c = true)
    (h : Text.isWhiteSpace c = true) : isBlank c = true := by
  have hSide := toNat_of_isWhiteSpace h
  rcases toNat_of_isLegal hLegal with hBlank | hBetween
  · exact hBlank
  · omega

theorem isBlankLine_iff {line : List Char} (hLegal : ∀ c ∈ line, isLegal c = true) :
    Text.isBlankLine line = true ↔ ∀ c ∈ line, isBlank c = true := by
  rw [Text.isBlankLine, List.all_eq_true]
  constructor
  · intro h c hc
    exact isBlank_of_isWhiteSpace (hLegal c hc) (h c hc)
  · intro h c hc
    exact isWhiteSpace_of_isBlank (h c hc)

theorem hasWords_nil_iff {source : List Char} :
    HasWords source [] ↔ ∀ c ∈ source, isBlank c = true := by
  constructor
  · rintro ⟨lead, parts, hCut, hParts⟩
    obtain rfl := List.map_eq_nil_iff.mp hParts
    obtain ⟨rfl, hBlank⟩ := cut_nil_iff.mp hCut
    exact hBlank
  · intro h
    exact ⟨source, [], cut_nil_iff.mpr ⟨rfl, h⟩, rfl⟩

/-- The sources without statements are the blank ones. -/
theorem parse_eq_empty_iff {source : String} :
    Program.parse source = .ok ⟨[]⟩ ↔ ∀ c ∈ source.toList, isBlank c = true := by
  rw [parse_iff_hasWords, ← hasWords_nil_iff]
  constructor
  · rintro ⟨ts, hWords, hAll⟩
    cases hAll
    exact hWords
  · intro h
    exact ⟨[], h, .nil⟩

/-- Lines that are parsed one by one are parsed together. -/
theorem parse_of_lines {text : List Char} {lines : List (List Char)} {programs : List Program}
    (hSplit : Text.SplitAfter (· == '\n') text lines) (hReturn : '\r' ∉ text)
    (hLines : List.Forall₂ (fun line p => Program.parse (String.ofList (Text.chopNewline line)) = .ok p)
      lines programs) :
    Program.parse (String.ofList text) = .ok ⟨programs.flatMap Program.body⟩ := by
  induction hSplit generalizing programs with
  | nil =>
    cases hLines
    exact parse_eq_empty_iff.mpr (by simp)
  | @last part _ hNone =>
    have hInline : Text.Inline part := ⟨hReturn, fun hMem => by simpa using hNone _ hMem⟩
    obtain ⟨p, programs, hLine, hRest, rfl⟩ := List.forall₂_cons_left_iff.mp hLines
    cases hRest
    rw [Text.chopNewline_of_inline hInline] at hLine
    simpa using hLine
  | @cons part rest a parts hNone hEnds _ ih =>
    obtain rfl : a = '\n' := eq_of_beq hEnds
    simp only [List.mem_append, List.mem_cons, not_or] at hReturn
    have hInline : Text.Inline part := ⟨hReturn.1, fun hMem => by simpa using hNone _ hMem⟩
    obtain ⟨p, programs, hLine, hRest, rfl⟩ := List.forall₂_cons_left_iff.mp hLines
    rw [Text.chopNewline_concat_newline hInline] at hLine
    obtain ⟨ts, hWords, hAll⟩ := parse_iff_hasWords.mp hLine
    obtain ⟨us, hWords', hAll'⟩ := parse_iff_hasWords.mp (ih hReturn.2.2 hRest)
    rw [String.toList_ofList] at hWords hWords'
    refine parse_iff_hasWords.mpr ⟨ts ++ us, ?_, Parser.spellsAll_append hAll hAll'⟩
    rw [String.toList_ofList, List.map_append]
    -- the newline keeps the last word of the line apart from the first word behind it
    exact hWords.append hWords' (List.cons_ne_nil '\n' []) (List.forall_mem_singleton.mpr rfl)

namespace Session

/-- What names come to in a new frame that binds nothing. -/
def freshLookup : Lookup := Store.empty.newGlobal.2.get Store.empty.newGlobal.1

theorem exists_program_of_outcome {source : String} {value : Value} (h : outcome source = .ok value) :
    ∃ p, Program.parse source = .ok p ∧ Expr.evalAll freshLookup p.body .null = .ok value := by
  unfold outcome at h
  split at h
  · cases h
  · rename_i p hParse
    have hOutcome : (Expr.evalAll freshLookup p.body .null).mapError LineError.eval = .ok value := by
      simpa only [Program.toExpr, Expr.evaluate_eq, Expr.eval, freshLookup] using h
    refine ⟨p, hParse, ?_⟩
    cases hValue : Expr.evalAll freshLookup p.body .null with
    | error e =>
      rw [hValue] at hOutcome
      cases hOutcome
    | ok v =>
      rw [hValue] at hOutcome
      cases hOutcome
      rfl

end Session

/-- Lines that are blank or have values are programs, which evaluated one behind the other come to the
last of the values. -/
theorem exists_programs {lines : List (List Char)}
    (hLegal : ∀ line ∈ lines, ∀ c ∈ line, isLegal c = true)
    (hValues : ∀ line ∈ lines.filter fun line => !Text.isBlankLine line, ∃ value,
      Session.outcome (String.ofList line) = .ok value) :
    ∃ (programs : List Program) (values : List Value),
      List.Forall₂ (fun line p => Program.parse (String.ofList line) = .ok p ∧
        (Text.isBlankLine line = false → p.body ≠ [])) lines programs ∧
      List.Forall₂ (fun line value => Session.outcome (String.ofList line) = .ok value)
        (lines.filter fun line => !Text.isBlankLine line) values ∧
      ∀ last, Expr.evalAll Session.freshLookup (programs.flatMap Program.body) last =
        .ok (values.getLast?.getD last) := by
  induction lines with
  | nil =>
    refine ⟨[], [], .nil, .nil, fun last => ?_⟩
    rw [List.flatMap_nil, Expr.evalAll]
    rfl
  | cons line lines ih =>
    have hLine := hLegal line List.mem_cons_self
    have hEmpty : Program.parse (String.ofList line) = .ok ⟨[]⟩ ↔ Text.isBlankLine line = true := by
      rw [parse_eq_empty_iff, String.toList_ofList, isBlankLine_iff hLine]
    cases hBlank : Text.isBlankLine line with
    | true =>
      rw [List.filter_cons_of_neg (by simp [hBlank])] at hValues ⊢
      obtain ⟨programs, values, hPrograms, hOutcomes, hLast⟩ :=
        ih (fun l hl => hLegal l (List.mem_cons_of_mem line hl)) hValues
      refine ⟨⟨[]⟩ :: programs, values, .cons ⟨hEmpty.mpr hBlank, ?_⟩ hPrograms, hOutcomes, hLast⟩
      intro hNot
      rw [hBlank] at hNot
      cases hNot
    | false =>
      rw [List.filter_cons_of_pos (by simp [hBlank])] at hValues ⊢
      obtain ⟨value, hValue⟩ := hValues line List.mem_cons_self
      obtain ⟨p, hParse, hEval⟩ := Session.exists_program_of_outcome hValue
      obtain ⟨programs, values, hPrograms, hOutcomes, hLast⟩ :=
        ih (fun l hl => hLegal l (List.mem_cons_of_mem line hl))
          fun l hl => hValues l (List.mem_cons_of_mem line hl)
      -- a line without statements would be blank
      have hBody : p.body ≠ [] := by
        intro hNil
        obtain rfl : p = ⟨[]⟩ := by rw [← hNil]
        rw [hEmpty.mp hParse] at hBlank
        cases hBlank
      refine ⟨p :: programs, value :: values, .cons ⟨hParse, fun _ => hBody⟩ hPrograms,
        .cons hValue hOutcomes, ?_⟩
      intro last
      rw [List.flatMap_cons, Expr.evalAll_append, Expr.evalAll_of_ne_nil hBody _ last .null, hEval,
        List.getLast?_cons]
      exact hLast value

theorem join_valueText {lines : List (List Char)} {values : List Value}
    (h : List.Forall₂ (fun line value => Session.outcome (String.ofList line) = .ok value)
      lines values) :
    String.join (lines.map fun line => Session.valueText (String.ofList line)) =
      String.join (values.map fun value => value.render ++ "\n") := by
  induction h with
  | nil => rfl
  | cons hValue _ ih =>
    rw [List.map_cons, List.map_cons, String.join_cons, String.join_cons, ih, Session.valueText,
      hValue]

theorem fileLines_join_render (values : List Value) :
    Text.fileLines (String.join (values.map fun value => value.render ++ "\n")).toList =
      values.map fun value => value.render.toList := by
  have hInline : ∀ line ∈ values.map (fun value => value.render.toList), Text.Inline line := by
    intro line hLine
    obtain ⟨value, _, rfl⟩ := List.mem_map.mp hLine
    exact value.inline_render
  rw [← Text.fileLines_flatMap_newline hInline]
  congr 1
  simp [String.toList_join, List.flatMap_map]

namespace Script

/-- What a script has printed, and what its lines come to, when it has run to its end. -/
theorem values_of_ok {settings : Settings} {path source : String}
    (h : (run { settings with ast := false } path source).result = .ok ()) :
    let lines := (Text.fileLines source.toList).filter fun line => !Text.isBlankLine line
    (∀ line ∈ lines, ∃ value, Session.outcome (String.ofList line) = .ok value) ∧
      ((run { settings with ast := false } path source).play {}).console.out.written =
        (String.join (lines.map fun line => Session.valueText (String.ofList line))).toUTF8 := by
  intro lines
  have hPassed := passed_of_ok path h
  constructor
  · intro line hLine
    obtain ⟨hMem, hBlank⟩ := List.mem_filter.mp hLine
    exact ((passed_start_iff _ _).mp (hPassed line hMem)).resolve_left (by simpa using hBlank)
  · have hTree : ∀ text, Session.treeText false text = "" := by
      intro text
      unfold Session.treeText
      split <;> rfl
    rw [(play_of_passed path hPassed).2, printed]
    simp only [hTree, String.empty_append, lines]

end Script

/-- A script in legal characters that runs to its end is parsed as a whole into the statements of its
lines, at least one for each line that is not blank, and comes to the value that it prints last. -/
theorem script_agrees_with_whole_program {settings : Settings} {path source : String}
    (hLegal : ∀ c ∈ source.toList, isLegal c = true)
    (hScript : ((Script.run { settings with ast := false } path source).play {}).result = .ok ()) :
    ∃ (programs : List Program) (value : Value) (printed : String),
      List.Forall₂ (fun line p => Program.parse (String.ofList line) = .ok p ∧
        (Text.isBlankLine line = false → p.body ≠ [])) (Text.fileLines source.toList) programs ∧
      let whole : Program := ⟨programs.flatMap Program.body⟩
      Program.parse source = .ok whole ∧
        (whole.toExpr.evaluate (Store.empty.newGlobal.2.get Store.empty.newGlobal.1)).result =
          .ok value ∧
        ((Script.run { settings with ast := false } path source).play {}).console.out.written =
          printed.toUTF8 ∧
        (printed = "" → value = .null) ∧
        (printed ≠ "" → (Text.fileLines printed.toList).getLast? = some value.render.toList) := by
  rw [Transcript.play_unlimited] at hScript
  have hSplit := Text.splitAfter_pieces (· == '\n') source.toList
  have hReturn : '\r' ∉ source.toList := by
    intro hMem
    cases hLegal '\r' hMem
  have hLines : ∀ line ∈ Text.fileLines source.toList, ∀ c ∈ line, isLegal c = true := by
    intro line hLine c hc
    obtain ⟨piece, hPiece, rfl⟩ := List.mem_map.mp hLine
    obtain ⟨ending, hEnding, _⟩ := Text.exists_ending_of_chopNewline piece
    have hMem : c ∈ piece := by
      rw [hEnding]
      exact List.mem_append_left _ hc
    apply hLegal
    rw [← hSplit.flatten]
    exact List.mem_flatten.mpr ⟨piece, hPiece, hMem⟩
  obtain ⟨hValues, hWritten⟩ := Script.values_of_ok hScript
  obtain ⟨programs, values, hPrograms, hOutcomes, hLast⟩ := exists_programs hLines hValues
  rw [join_valueText hOutcomes] at hWritten
  have hFile := fileLines_join_render values
  refine ⟨programs, values.getLast?.getD .null, _, hPrograms, ?_, ?_, hWritten, ?_, ?_⟩
  · have hWhole := parse_of_lines hSplit hReturn
      ((List.forall₂_map_left_iff.mp hPrograms).imp fun _ _ h => h.1)
    rwa [String.ofList_toList] at hWhole
  · rw [Program.toExpr, Expr.evaluate_eq, Expr.eval]
    exact hLast .null
  · intro hNothing
    rw [hNothing] at hFile
    obtain rfl : values = [] := List.map_eq_nil_iff.mp hFile.symm
    rfl
  · intro hPrinted
    rw [hFile, List.getLast?_map]
    cases hEnd : values.getLast? with
    | none =>
      rw [List.getLast?_eq_none_iff.mp hEnd] at hPrinted
      exact absurd rfl hPrinted
    | some value => rfl

/-- A blank line has a program without statements, another line may have two. -/
theorem script_agrees_with_whole_program_blank_line :
    let source := "null + null\n \t\n(null) null"
    let run := (Script.run { ast := false } "lines" source).play {}
    (∀ c ∈ source.toList, isLegal c = true) ∧ run.result = .ok () ∧
      ∃ (programs : List Program) (value : Value) (printed : String),
        programs.length = 3 ∧ Program.parse source = .ok ⟨programs.flatMap Program.body⟩ ∧
        ((Program.mk (programs.flatMap Program.body)).toExpr.evaluate
          (Store.empty.newGlobal.2.get Store.empty.newGlobal.1)).result = .ok value ∧
        run.console.out.written = printed.toUTF8 ∧
        (printed ≠ "" → (Text.fileLines printed.toList).getLast? = some value.render.toList) := by
  intro source run
  have hLegal : ∀ c ∈ source.toList, isLegal c = true := List.all_eq_true.mp (by cbv)
  have hRun : (Script.run { ast := false } "lines" source).result = .ok () := by cbv
  have hResult : run.result = .ok () := by
    rw [← hRun]
    exact congrArg Report.result (Transcript.play_unlimited _)
  have hFile : (Text.fileLines source.toList).length = 3 := by cbv
  obtain ⟨programs, value, printed, hPrograms, hParse, hValue, hPrinted, _, hLast⟩ :=
    @script_agrees_with_whole_program {} _ _ hLegal hResult
  exact ⟨hLegal, hResult, programs, value, printed, hPrograms.length_eq.symm.trans hFile, hParse,
    hValue, hPrinted, hLast⟩

end Reckoner
