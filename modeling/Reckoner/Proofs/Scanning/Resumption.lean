import Reckoner.Proofs.Scanning.Placement

/-! # Scanning behind an error

An illegal character costs one result and nothing more. The stretch of legal characters behind it is
scanned as if it were a source of its own, except that positions go on counting, and no word reaches
across it. Once the text is used up, every scan gives the same closing token.
-/
namespace Reckoner
set_option autoImplicit false

open Alphabet

/-- `Placed before text ts`: the tokens are the words of the text, and each has the place that its word
has with `before` in front of the text. A word is told from its repetitions by the words on either side
of it. -/
structure Placed (before text : List Char) (ts : List Token) : Prop where
  words : HasWords text (ts.map Token.word)
  places : ∀ front t back, ts = front ++ t :: back → ∃ pre post,
    text = pre ++ (t.lexeme.toList ++ post) ∧ HasWords pre (front.map Token.word) ∧
      HasWords post (back.map Token.word) ∧ t.StandsBehind (before ++ pre)

/-- A stretch of legal characters with `before` in front of it. Its tokens are the words that it has as
a source of its own, at their places in the whole. -/
structure Stretch (before text : List Char) (ts : List Token) : Prop where
  legal : ∀ c ∈ text, isLegal c = true
  tokens : ∃ us p, tokenize (String.ofList text) = .ok (us ++ [.endAt p]) ∧
    us.map Token.word = ts.map Token.word
  placed : Placed before text ts

/-- `Outcomes before text found`: with `before` in front of it, the text consists of stretches of legal
characters with an illegal character between every two of them, and the results are the tokens of each
stretch and an error for each illegal character, in the order of the text. -/
inductive Outcomes : List Char → List Char → List (Except ScanError Token) → Prop where
  | last {before text : List Char} {ts : List Token} : Stretch before text ts →
      Outcomes before text (ts.map .ok)
  | resume {before text rest : List Char} {ts : List Token} {c : Char} {p : Position}
      {found : List (Except ScanError Token)} : Stretch before text ts → isLegal c = false →
      p.IsBehind (before ++ text) → Outcomes (before ++ text ++ [c]) rest found →
      Outcomes before (text ++ c :: rest) (ts.map .ok ++ .error ⟨p, c⟩ :: found)

namespace Scanner

/-- The tokens found in a text are placed in it, whatever is behind it. -/
theorem Finds.placed {before text behind : List Char} {p : Position} {ts : List Token}
    (h : Finds ⟨text ++ behind, Position.first.after before⟩ (ts.map .ok) ⟨behind, p⟩)
    (hShort : (before ++ text).length < 2 ^ 31 - 1) : Placed before text ts := by
  constructor
  · obtain ⟨read, hRead, _, hWords⟩ := h.exists_read
    obtain rfl : text = read := List.append_cancel_right hRead
    exact hWords
  · rintro front t back rfl
    obtain ⟨pre, post, hSource, _, hPre, hPost, hStart, hStop, _⟩ := h.exists_place before front
    have hText : text = pre ++ (t.lexeme.toList ++ post) := by
      have hWhole : text ++ behind = pre ++ (t.lexeme.toList ++ post) ++ behind := by
        simp only [hSource, List.append_assoc]
      exact List.append_cancel_right hWhole
    have hPrefix : before ++ pre ++ t.lexeme.toList <+: before ++ text := ⟨post, by simp [hText]⟩
    exact ⟨pre, post, hText, hPre, hPost, Token.standsBehind_of_after hStart hStop hPrefix hShort⟩

theorem Finds.stretch {before text behind : List Char} {p : Position} {ts : List Token}
    (h : Finds ⟨text ++ behind, Position.first.after before⟩ (ts.map .ok) ⟨behind, p⟩)
    (hLegal : ∀ c ∈ text, isLegal c = true) (hShort : (before ++ text).length < 2 ^ 31 - 1) :
    Stretch before text ts := by
  have hPlaced := h.placed hShort
  refine ⟨hLegal, ?_, hPlaced⟩
  apply exists_tokenize_of_hasWords
  rw [String.toList_ofList]
  exact hPlaced.words

theorem exists_outcomes (before : List Char) {text : List Char}
    (hShort : (before ++ text).length < 2 ^ 31 - 1) :
    ∃ found, Outcomes before text found ∧ Finds ⟨text, Position.first.after before⟩ found
      ⟨[], Position.first.after (before ++ text)⟩ := by
  -- each illegal character leaves a shorter rest with more text in front of it
  induction text using (measure List.length).wf.induction generalizing before with
  | h text ih =>
    rcases legal_or_exists_illegal text with hLegal | ⟨pre, c, rest, rfl, hLegal, hIllegal⟩
    · obtain ⟨ts, hFinds⟩ :=
        exists_finds_of_legal hLegal Token.Kind.stops_nil (Position.first.after before)
      refine ⟨ts.map .ok, .last (hFinds.stretch hLegal hShort), ?_⟩
      rwa [List.append_nil, ← Position.after_append] at hFinds
    · obtain ⟨ts, hFinds⟩ := exists_finds_of_legal hLegal (Token.Kind.stops_illegal hIllegal rest)
        (Position.first.after before)
      have hWhole : before ++ (pre ++ c :: rest) = before ++ pre ++ [c] ++ rest := by simp
      have hLess : rest.length < (pre ++ c :: rest).length := by
        simp only [List.length_append, List.length_cons]
        omega
      have hPre : (before ++ pre).length < 2 ^ 31 - 1 := by
        simp only [List.length_append] at hShort ⊢
        omega
      obtain ⟨found, hOutcomes, hRest⟩ := ih rest hLess (before ++ pre ++ [c]) (by rwa [← hWhole])
      rw [Position.after_append _ _ [c]] at hRest
      rw [← Position.after_append] at hFinds
      refine ⟨_, .resume (hFinds.stretch hLegal hPre) hIllegal (Position.isBehind_after hPre)
        hOutcomes, ?_⟩
      rw [hWhole]
      exact hFinds.append (.illegal hIllegal hRest)

theorem toList_scans (count : Nat) (s : Scanner) (done : Array (Except ScanError Token)) :
    (scans count s done).toList = done.toList ++ (scans count s #[]).toList := by
  induction count generalizing s done with
  | zero => simp [scans]
  | succ count ih =>
    simp only [scans]
    rw [ih, ih s.next.2 (#[].push s.next.1)]
    simp

theorem toList_scans_succ (count : Nat) (s : Scanner) :
    (scans (count + 1) s #[]).toList = s.next.1 :: (scans count s.next.2 #[]).toList := by
  simp only [scans]
  rw [toList_scans]
  simp

theorem toList_scans_end (count : Nat) (p : Position) :
    (scans count ⟨[], p⟩ #[]).toList = List.replicate count (.ok (.endAt p)) := by
  induction count with
  | zero => rfl
  | succ count ih =>
    have hNext : next ⟨[], p⟩ = (.ok (.endAt p), ⟨[], p⟩) := rfl
    rw [toList_scans_succ, hNext, ih, List.replicate_succ]

theorem scans_blank {c : Char} (h : isBlank c = true) (rest : List Char) (p : Position) (count : Nat)
    (done : Array (Except ScanError Token)) :
    scans count ⟨c :: rest, p⟩ done = scans count ⟨rest, p.advance c⟩ done := by
  cases count with
  | zero => rfl
  | succ count => simp only [scans, next_blank h]

/-- Any number of scans gives the first results there are, and closing tokens when they run out. -/
theorem Finds.toList_scans {s : Scanner} {found : List (Except ScanError Token)} {p : Position}
    (h : Finds s found ⟨[], p⟩) (count : Nat) : (scans count s #[]).toList =
      found.take count ++ List.replicate (count - found.length) (.ok (.endAt p)) := by
  generalize hEnd : (⟨[], p⟩ : Scanner) = s' at h
  induction h generalizing count with
  | done s =>
    subst hEnd
    simp [toList_scans_end]
  | blank hBlank _ ih => rw [scans_blank hBlank, ih count hEnd]
  | word hFits hStops _ ih =>
    cases count with
    | zero => simp [scans]
    | succ count =>
      rw [toList_scans_succ, next_word hFits hStops, ih count hEnd]
      simp
  | illegal hIllegal _ ih =>
    cases count with
    | zero => simp [scans]
    | succ count =>
      rw [toList_scans_succ, next_illegal hIllegal, ih count hEnd]
      simp

end Scanner

/-- Successive scans of a short source give the tokens of its legal stretches with an error for each
illegal character between them, and from then on the same closing token. -/
theorem scans_resume_after_errors {source : String} (hShort : source.length < 2 ^ 31 - 1) :
    ∃ found p, Outcomes [] source.toList found ∧ p.IsBehind source.toList ∧
      ∀ count, (Scanner.scans count (Scanner.ofText source) #[]).toList =
        found.take count ++ List.replicate (count - found.length) (.ok (.endAt p)) := by
  have hLength : source.toList.length < 2 ^ 31 - 1 := by rwa [String.length_toList]
  obtain ⟨found, hOutcomes, hFinds⟩ := Scanner.exists_outcomes [] hLength
  exact ⟨found, _, hOutcomes, Position.isBehind_after hLength, hFinds.toList_scans⟩

/-- Two illegal characters in a row, and one of several bytes right behind a word. -/
theorem scans_resume_after_errors_multibyte :
    let source := "a€\n12 $$b"
    source.length < 2 ^ 31 - 1 ∧
      Scanner.scans 8 (Scanner.ofText source) #[] =
        #[.ok ⟨.identifier, "a", ⟨1, 1⟩, ⟨1, 2⟩⟩, .error ⟨⟨1, 2⟩, '€'⟩,
          .ok ⟨.number, "12", ⟨2, 1⟩, ⟨2, 3⟩⟩, .error ⟨⟨2, 4⟩, '$'⟩, .error ⟨⟨2, 5⟩, '$'⟩,
          .ok ⟨.identifier, "b", ⟨2, 6⟩, ⟨2, 7⟩⟩, .ok (.endAt ⟨2, 7⟩), .ok (.endAt ⟨2, 7⟩)] ∧
      ∃ found p, Outcomes [] source.toList found ∧ p.IsBehind source.toList ∧
        ∀ count, (Scanner.scans count (Scanner.ofText source) #[]).toList =
          found.take count ++ List.replicate (count - found.length) (.ok (.endAt p)) := by
  intro source
  have hShort : source.length < 2 ^ 31 - 1 := by decide
  exact ⟨hShort, by cbv, scans_resume_after_errors hShort⟩

end Reckoner
