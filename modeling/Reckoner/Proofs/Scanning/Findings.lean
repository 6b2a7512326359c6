import Reckoner.Proofs.Position.Counting
import Reckoner.Proofs.Scanning.Cut

/-! # What scanning finds

Scanning passes over a blank without a result, over a word with its token, and over an illegal character
with an error. `Scanner.Finds` follows such a passage with the text that is still to come in sight, so a
word is never split where two passages meet. A stretch of legal characters gives tokens and nothing else,
also in front of an illegal character; a source is therefore rejected at its first illegal character, and
only there.
-/
namespace Reckoner
set_option autoImplicit false

open Alphabet

/-- `Finds s found s'`: scanning leads from `s` to `s'` and gives the results on the way. -/
inductive Scanner.Finds : Scanner → List (Except ScanError Token) → Scanner → Prop where
  | done (s : Scanner) : Finds s [] s
  | blank {c : Char} {rest : List Char} {p : Position} {found : List (Except ScanError Token)}
      {s : Scanner} : isBlank c = true → Finds ⟨rest, p.advance c⟩ found s →
      Finds ⟨c :: rest, p⟩ found s
  | word {kind : Token.Kind} {word rest : List Char} {p : Position}
      {found : List (Except ScanError Token)} {s : Scanner} : kind.Fits word → kind.Stops rest →
      Finds ⟨rest, p.after word⟩ found s →
      Finds ⟨word ++ rest, p⟩ (.ok ⟨kind, String.ofList word, p, p.after word⟩ :: found) s
  | illegal {c : Char} {rest : List Char} {p : Position} {found : List (Except ScanError Token)}
      {s : Scanner} : isLegal c = false → Finds ⟨rest, p.advance c⟩ found s →
      Finds ⟨c :: rest, p⟩ (.error ⟨p, c⟩ :: found) s

namespace Scanner

/-- The scanner that a number of scans leave behind. -/
def reached : Nat → Scanner → Scanner
  | 0, s => s
  | count + 1, s => reached count s.next.2

theorem next_reached_blank {c : Char} (h : isBlank c = true) (rest : List Char) (p : Position)
    (count : Nat) : (reached count ⟨c :: rest, p⟩).next = (reached count ⟨rest, p.advance c⟩).next := by
  cases count with
  | zero => exact next_blank h rest p
  | succ count => rw [reached, reached, next_blank h]

end Scanner

theorem exists_munch? {c : Char} (hLegal : isLegal c = true) (hBlank : isBlank c = false)
    (text : List Char) : ∃ kind word rest, munch? c text = some (kind, word, rest) := by
  unfold munch?
  by_cases hDigit : isDigit c = true
  · exact ⟨_, _, _, if_pos hDigit⟩
  rw [if_neg hDigit]
  by_cases hLetter : isLetter c = true
  · exact ⟨_, _, _, if_pos hLetter⟩
  rw [if_neg hLetter]
  have hMark : isMark c = true := by simpa [isLegal, hDigit, hLetter, hBlank] using hLegal
  obtain ⟨kind, hKind⟩ : ∃ kind, Token.Kind.ofMark? c = some kind := by
    simp only [isMark, List.contains_iff_mem, List.mem_cons, List.not_mem_nil, or_false] at hMark
    rcases hMark with rfl | rfl | rfl | rfl | rfl | rfl | rfl | rfl <;> exact ⟨_, rfl⟩
  exact ⟨kind, [c], text, by rw [hKind]; rfl⟩

namespace Scanner.Finds

variable {s s' s'' : Scanner} {found found' : List (Except ScanError Token)} {ts : List Token}

theorem append (h : Finds s found s') (h' : Finds s' found' s'') : Finds s (found ++ found') s'' := by
  induction h with
  | done s => exact h'
  | blank hBlank _ ih => exact .blank hBlank (ih h')
  | word hFits hStops _ ih => exact .word hFits hStops (ih h')
  | illegal hIllegal _ ih => exact .illegal hIllegal (ih h')

theorem passes (h : Finds s (ts.map .ok) s') : s.Passes ts s' := by
  generalize hFound : ts.map Except.ok = found at h
  induction h generalizing ts with
  | done s =>
    obtain rfl := List.map_eq_nil_iff.mp hFound
    exact passes_nil s
  | blank hBlank _ ih => exact (passes_blank hBlank _ _).trans (ih hFound)
  | word hFits hStops _ ih =>
    obtain ⟨t, ts, rfl, hToken, hRest⟩ := List.map_eq_cons_iff.mp hFound
    cases hToken
    exact (passes_word hFits hStops _).trans (ih hRest)
  | illegal _ _ _ =>
    obtain ⟨t, ts, rfl, hToken, _⟩ := List.map_eq_cons_iff.mp hFound
    cases hToken

/-- What lies between the two scanners consists of the words that were found. -/
theorem exists_read (h : Finds s (ts.map .ok) s') :
    ∃ read, s.rest = read ++ s'.rest ∧ s'.position = s.position.after read ∧
      HasWords read (ts.map Token.word) := by
  generalize hFound : ts.map Except.ok = found at h
  induction h generalizing ts with
  | done s =>
    obtain rfl := List.map_eq_nil_iff.mp hFound
    exact ⟨[], rfl, rfl, [], [], cut_nil_iff.mpr ⟨rfl, by simp⟩, rfl⟩
  | blank hBlank _ ih =>
    obtain ⟨read, rfl, hPosition, hWords⟩ := ih hFound
    exact ⟨_ :: read, rfl, hPosition, hWords.cons_blank hBlank⟩
  | @word kind word _ p _ _ hFits hStops _ ih =>
    obtain ⟨t, ts, rfl, hToken, hRest⟩ := List.map_eq_cons_iff.mp hFound
    cases hToken
    obtain ⟨read, rfl, hPosition, hWords⟩ := ih hRest
    refine ⟨word ++ read, by rw [List.append_assoc], by rw [hPosition, Position.after_append], ?_⟩
    have hWord : Word.Fits ⟨kind, word⟩ := hFits
    simpa [Token.word] using hWords.cons_word hWord hStops.of_append
  | illegal _ _ _ =>
    obtain ⟨t, ts, rfl, hToken, _⟩ := List.map_eq_cons_iff.mp hFound
    cases hToken

/-- The scan that gives a token starts behind what was found before and leaves what is found later. -/
theorem split {front back : List (Except ScanError Token)} {t : Token}
    (h : Finds s (front ++ .ok t :: back) s') :
    ∃ rest, Finds s front ⟨t.lexeme.toList ++ rest, t.start⟩ ∧
      (s.reached front.length).next = (.ok t, ⟨rest, t.stop⟩) ∧
      t.stop = t.start.after t.lexeme.toList ∧ t.word.Fits ∧ Finds ⟨rest, t.stop⟩ back s' := by
  generalize hFound : front ++ .ok t :: back = found at h
  induction h generalizing front with
  | done s => simp at hFound
  | blank hBlank _ ih =>
    obtain ⟨rest, hFront, hNext, hToken⟩ := ih hFound
    exact ⟨rest, .blank hBlank hFront, (next_reached_blank hBlank _ _ _).trans hNext, hToken⟩
  | @word kind word rest p _ _ hFits hStops hRest ih =>
    have hNext := next_word hFits hStops p
    cases front with
    | nil =>
      cases hFound
      refine ⟨rest, ?_, hNext, ?_, ?_, hRest⟩
      · rw [String.toList_ofList]
        exact .done _
      · rw [String.toList_ofList]
      · rwa [Word.Fits, Token.word, String.toList_ofList]
    | cons first front =>
      obtain ⟨rfl, hFront⟩ := List.cons.inj hFound
      obtain ⟨rest, hFinds, hLater, hToken⟩ := ih hFront
      refine ⟨rest, .word hFits hStops hFinds, ?_, hToken⟩
      rw [List.length_cons, reached, hNext]
      exact hLater
  | illegal hIllegal _ ih =>
    cases front with
    | nil => cases hFound
    | cons first front =>
      obtain ⟨rfl, hFront⟩ := List.cons.inj hFound
      obtain ⟨rest, hFinds, hLater, hToken⟩ := ih hFront
      refine ⟨rest, .illegal hIllegal hFinds, ?_, hToken⟩
      rw [List.length_cons, reached, next_illegal hIllegal]
      exact hLater

end Scanner.Finds

theorem Scanner.exists_finds_of_legal {text : List Char} (hLegal : ∀ c ∈ text, isLegal c = true)
    {behind : List Char} (hBehind : ∀ kind : Token.Kind, kind.Stops behind) (p : Position) :
    ∃ ts : List Token, Finds ⟨text ++ behind, p⟩ (ts.map .ok) ⟨behind, p.after text⟩ := by
  -- a word takes several characters at once, so the induction is on the length
  induction text using (measure List.length).wf.induction generalizing p with
  | h text ih =>
    cases text with
    | nil => exact ⟨[], .done _⟩
    | cons c text =>
      cases hBlank : isBlank c with
      | true =>
        have hRest : ∀ d ∈ text, isLegal d = true := fun d hd => hLegal d (List.mem_cons_of_mem c hd)
        obtain ⟨ts, hFinds⟩ := ih text (Nat.lt_succ_self text.length) hRest (p.advance c)
        exact ⟨ts, .blank hBlank hFinds⟩
      | false =>
        obtain ⟨kind, word, rest, hMunch⟩ := exists_munch? (hLegal c List.mem_cons_self) hBlank text
        obtain ⟨hFits, hStops⟩ := munch?_fits hMunch
        have hText := munch?_append hMunch
        have hLess : rest.length < (c :: text).length := Nat.lt_succ_of_le (munch?_length hMunch)
        have hRest : ∀ d ∈ rest, isLegal d = true := by
          intro d hd
          apply hLegal
          rw [hText]
          exact List.mem_append_right word hd
        obtain ⟨ts, hFinds⟩ := ih rest hLess hRest (p.after word)
        refine ⟨⟨kind, String.ofList word, p, p.after word⟩ :: ts, ?_⟩
        rw [hText, List.append_assoc, Position.after_append]
        exact .word hFits (hStops.behind (hBehind kind)) hFinds

theorem legal_or_exists_illegal (text : List Char) : (∀ c ∈ text, isLegal c = true) ∨
    ∃ pre c post, text = pre ++ c :: post ∧ (∀ d ∈ pre, isLegal d = true) ∧ isLegal c = false := by
  cases hFind : text.find? fun c => !isLegal c with
  | none =>
    left
    simpa using List.find?_eq_none.mp hFind
  | some c =>
    right
    obtain ⟨hIllegal, pre, post, hText, hLegal⟩ := List.find?_eq_some_iff_append.mp hFind
    exact ⟨pre, c, post, hText, by simpa using hLegal, by simpa using hIllegal⟩

theorem exists_tokenize_of_legal {source : String} (h : ∀ c ∈ source.toList, isLegal c = true) :
    ∃ ts : List Token, tokenize source = .ok (ts ++ [.endAt (Position.first.after source.toList)]) ∧
      Scanner.Finds ⟨source.toList, .first⟩ (ts.map .ok)
        ⟨[], Position.first.after source.toList⟩ := by
  obtain ⟨ts, hFinds⟩ := Scanner.exists_finds_of_legal h Token.Kind.stops_nil .first
  rw [List.append_nil] at hFinds
  exact ⟨ts, tokenize_of_passes hFinds.passes, hFinds⟩

theorem tokenize_of_illegal {source : String} {pre post : List Char} {c : Char}
    (hSource : source.toList = pre ++ c :: post) (hLegal : ∀ d ∈ pre, isLegal d = true)
    (hIllegal : isLegal c = false) : tokenize source = .error ⟨Position.first.after pre, c⟩ := by
  obtain ⟨ts, hFinds⟩ :=
    Scanner.exists_finds_of_legal hLegal (Token.Kind.stops_illegal hIllegal post) .first
  rw [tokenize, Scanner.ofText, hSource, hFinds.passes #[], Scanner.tokensFrom_eq,
    Scanner.next_illegal hIllegal]

theorem forall_isLegal_of_tokenize {source : String} {tokens : List Token}
    (h : tokenize source = .ok tokens) : ∀ c ∈ source.toList, isLegal c = true := by
  rcases legal_or_exists_illegal source.toList with hLegal | ⟨pre, c, post, hSource, hLegal, hIllegal⟩
  · exact hLegal
  · rw [tokenize_of_illegal hSource hLegal hIllegal] at h
    cases h

/-- A source is scanned if and only if all its characters are legal, and the error of any other source
is its first illegal character with the position found by counting. -/
theorem tokenize_fails_at_first_illegal {source : String} (hShort : source.length < 2 ^ 31 - 1) :
    ((∃ tokens, tokenize source = .ok tokens) ↔ ∀ c ∈ source.toList, isLegal c = true) ∧
      ∀ e : ScanError, tokenize source = .error e ↔
        ∃ pre post, source.toList = pre ++ e.character :: post ∧ (∀ c ∈ pre, isLegal c = true) ∧
          isLegal e.character = false ∧ e.position.IsBehind pre := by
  have hBehind : ∀ pre post : List Char, source.toList = pre ++ post →
      (Position.first.after pre).IsBehind pre := by
    intro pre post hSource
    rw [← String.length_toList] at hShort
    exact Position.isBehind_after_of_prefix ⟨post, hSource.symm⟩ hShort
  refine ⟨⟨?_, ?_⟩, ?_⟩
  · rintro ⟨tokens, hTokens⟩
    exact forall_isLegal_of_tokenize hTokens
  · intro hLegal
    obtain ⟨ts, hTokens, _⟩ := exists_tokenize_of_legal hLegal
    exact ⟨_, hTokens⟩
  · intro e
    constructor
    · intro hError
      rcases legal_or_exists_illegal source.toList with
        hLegal | ⟨pre, c, post, hSource, hLegal, hIllegal⟩
      · obtain ⟨ts, hTokens, _⟩ := exists_tokenize_of_legal hLegal
        rw [hTokens] at hError
        cases hError
      · rw [tokenize_of_illegal hSource hLegal hIllegal] at hError
        cases hError
        exact ⟨pre, post, hSource, hLegal, hIllegal, hBehind pre _ hSource⟩
    · rintro ⟨pre, post, hSource, hLegal, hIllegal, hPosition⟩
      rw [tokenize_of_illegal hSource hLegal hIllegal, ← hPosition.unique (hBehind pre _ hSource)]

/-- The rejected character may be of several bytes, and stand right behind a word of a later line. -/
theorem tokenize_fails_at_first_illegal_multibyte :
    "a\n12é$".length < 2 ^ 31 - 1 ∧ (∀ c ∈ "a\n12".toList, isLegal c = true) ∧
      tokenize "a\n12é$" = .error ⟨⟨2, 3⟩, 'é'⟩ := by
  have hShort : "a\n12é$".length < 2 ^ 31 - 1 := by decide
  have hLegal : ∀ c ∈ "a\n12".toList, isLegal c = true := List.all_eq_true.mp rfl
  refine ⟨hShort, hLegal, ?_⟩
  exact ((tokenize_fails_at_first_illegal hShort).2 _).mpr
    ⟨"a\n12".toList, ['$'], rfl, hLegal, rfl, rfl, rfl⟩

end Reckoner
