import Reckoner.Token.Scanner

/-! # Words of a source text

Which words belong to which kind of token, and which characters would make such a word longer. One scan
takes a word of some kind that the text behind it does not lengthen, and there is no other such word at
that place. Scanning a text therefore passes over it word by word and blank by blank.
-/
namespace Reckoner
set_option autoImplicit false

open Alphabet

/-- The words of a kind. The kind `string` has none, and the closing token is no word. -/
def Token.Kind.Fits : Token.Kind → List Char → Prop
  | .number, word => word ≠ [] ∧ ∀ c ∈ word, isDigit c = true
  | .identifier, word =>
    word ≠ [] ∧ (∀ c ∈ word, isLetter c = true) ∧ word ≠ ['v', 'a', 'r'] ∧
      word ≠ ['n', 'u', 'l', 'l']
  | .var, word => word = ['v', 'a', 'r']
  | .null, word => word = ['n', 'u', 'l', 'l']
  | .operator, word => ∃ op : Operator, word = op.symbol.toList
  | .assign, word => word = ['=']
  | .openParen, word => word = ['(']
  | .closeParen, word => word = [')']
  | .string, _ | .endOfInput, _ => False

/-- The characters that go on a word of a kind. -/
def Token.Kind.grows : Token.Kind → Char → Bool
  | .number => isDigit
  | .identifier | .var | .null => isLetter
  | _ => fun _ => false

/-- The text does not go on a word of the kind. -/
def Token.Kind.Stops (kind : Token.Kind) (rest : List Char) : Prop :=
  ∀ c ∈ rest.head?, kind.grows c = false

theorem takeWhile_run {p : Char → Bool} {run rest : List Char} (hRun : ∀ c ∈ run, p c = true)
    (hRest : ∀ c ∈ rest.head?, p c = false) :
    (run ++ rest).takeWhile p = run ∧ (run ++ rest).dropWhile p = rest := by
  rw [List.takeWhile_append_of_pos hRun, List.dropWhile_append_of_pos hRun]
  cases rest with
  | nil => simp
  | cons c rest =>
    have hHead := hRest c rfl
    simp [hHead]

theorem forall_cons_takeWhile {p : Char → Bool} {c : Char} (h : p c = true) (text : List Char) :
    ∀ d ∈ c :: text.takeWhile p, p d = true := by
  intro d hd
  rcases List.mem_cons.mp hd with rfl | hRest
  · exact h
  · exact List.all_eq_true.mp List.all_takeWhile d hRest

theorem dropWhile_head {p : Char → Bool} (text : List Char) :
    ∀ c ∈ (text.dropWhile p).head?, p c = false := by
  intro c hc
  have hNot := List.head?_dropWhile_not p text
  rw [hc] at hNot
  simpa using hNot

theorem isDigit_eq_false_of_isLetter {c : Char} (h : isLetter c = true) : isDigit c = false := by
  refine Bool.eq_false_iff.mpr fun hDigit => ?_
  rw [isLetter_eq_false_of_isDigit hDigit] at h
  cases h

theorem isBlank_eq_false_of_isLetter {c : Char} (h : isLetter c = true) : isBlank c = false := by
  refine Bool.eq_false_iff.mpr fun hBlank => ?_
  rcases (isBlank_iff c).mp hBlank with rfl | rfl | rfl
  all_goals cases h

theorem isBlank_eq_false_of_isDigit {c : Char} (h : isDigit c = true) : isBlank c = false := by
  refine Bool.eq_false_iff.mpr fun hBlank => ?_
  rcases (isBlank_iff c).mp hBlank with rfl | rfl | rfl
  all_goals cases h

namespace Token.Kind

theorem grows_eq_false {c : Char} (hLetter : isLetter c = false) (hDigit : isDigit c = false)
    (kind : Token.Kind) : kind.grows c = false := by
  cases kind with
  | number => exact hDigit
  | identifier | var | null => exact hLetter
  | string | assign | operator | openParen | closeParen | endOfInput => rfl

theorem stops_nil (kind : Token.Kind) : kind.Stops [] := by
  simp [Stops]

theorem stops_illegal {c : Char} (h : isLegal c = false) (rest : List Char) (kind : Token.Kind) :
    kind.Stops (c :: rest) := by
  simp only [isLegal, Bool.or_eq_false_iff] at h
  intro d hd
  obtain rfl : c = d := Option.some.inj hd
  exact grows_eq_false h.1.1.1 h.1.1.2 kind

theorem Stops.of_append {kind : Token.Kind} {text behind : List Char}
    (h : kind.Stops (text ++ behind)) : kind.Stops text := by
  cases text with
  | nil => exact stops_nil kind
  | cons c text => exact h

theorem Stops.behind {kind : Token.Kind} {text behind : List Char} (h : kind.Stops text)
    (hBehind : kind.Stops behind) : kind.Stops (text ++ behind) := by
  cases text with
  | nil => exact hBehind
  | cons c text => exact h

theorem fits_ofWord {word : List Char} (hWord : word ≠ [])
    (hLetters : ∀ c ∈ word, isLetter c = true) :
    (ofWord word).Fits word ∧ (ofWord word).grows = isLetter := by
  unfold ofWord
  split
  · exact ⟨‹_›, rfl⟩
  split
  · exact ⟨‹_›, rfl⟩
  · exact ⟨⟨hWord, hLetters, ‹_›, ‹_›⟩, rfl⟩

theorem fits_ofMark? {c : Char} {kind : Token.Kind} (h : ofMark? c = some kind) :
    kind.Fits [c] ∧ kind.grows = fun _ => false := by
  unfold ofMark? at h
  split at h
  · cases h
    exact ⟨rfl, rfl⟩
  · cases h
    exact ⟨rfl, rfl⟩
  · cases h
    exact ⟨⟨.add, rfl⟩, rfl⟩
  · cases h
    exact ⟨⟨.subtract, rfl⟩, rfl⟩
  · cases h
    exact ⟨⟨.multiply, rfl⟩, rfl⟩
  · cases h
    exact ⟨⟨.divide, rfl⟩, rfl⟩
  · cases h
    exact ⟨⟨.remainder, rfl⟩, rfl⟩
  · cases h
    exact ⟨rfl, rfl⟩
  · cases h

/-- A fitting word is a run of digits, a run of letters, or a mark. -/
theorem Fits.cases {kind : Token.Kind} {word : List Char} (h : kind.Fits word) :
    (kind = .number ∧ word ≠ [] ∧ ∀ c ∈ word, isDigit c = true) ∨
      (kind = ofWord word ∧ kind.grows = isLetter ∧ word ≠ [] ∧ ∀ c ∈ word, isLetter c = true) ∨
      ∃ c, word = [c] ∧ ofMark? c = some kind ∧ isDigit c = false ∧ isLetter c = false ∧
        isBlank c = false := by
  cases kind with
  | number => exact .inl ⟨rfl, h⟩
  | identifier =>
    obtain ⟨hWord, hLetters, hVar, hNull⟩ := h
    refine .inr (.inl ⟨?_, rfl, hWord, hLetters⟩)
    simp [ofWord, hVar, hNull]
  | var =>
    obtain rfl : word = ['v', 'a', 'r'] := h
    exact .inr (.inl ⟨rfl, rfl, by simp, List.all_eq_true.mp rfl⟩)
  | null =>
    obtain rfl : word = ['n', 'u', 'l', 'l'] := h
    exact .inr (.inl ⟨rfl, rfl, by simp, List.all_eq_true.mp rfl⟩)
  | operator =>
    obtain ⟨op, rfl⟩ := h
    refine .inr (.inr ?_)
    cases op with
    | add => exact ⟨'+', rfl, rfl, rfl, rfl, rfl⟩
    | subtract => exact ⟨'-', rfl, rfl, rfl, rfl, rfl⟩
    | multiply => exact ⟨'*', rfl, rfl, rfl, rfl, rfl⟩
    | divide => exact ⟨'/', rfl, rfl, rfl, rfl, rfl⟩
    | remainder => exact ⟨'%', rfl, rfl, rfl, rfl, rfl⟩
  | assign =>
    obtain rfl : word = ['='] := h
    exact .inr (.inr ⟨'=', rfl, rfl, rfl, rfl, rfl⟩)
  | openParen =>
    obtain rfl : word = ['('] := h
    exact .inr (.inr ⟨'(', rfl, rfl, rfl, rfl, rfl⟩)
  | closeParen =>
    obtain rfl : word = [')'] := h
    exact .inr (.inr ⟨')', rfl, rfl, rfl, rfl, rfl⟩)
  | string | endOfInput => cases h

theorem Fits.ne_endOfInput {kind : Token.Kind} {word : List Char} (h : kind.Fits word) :
    kind ≠ .endOfInput := by
  rintro rfl
  exact h

theorem Fits.exists_head {kind : Token.Kind} {word : List Char} (h : kind.Fits word) :
    ∃ c rest, word = c :: rest ∧ isBlank c = false := by
  rcases h.cases with ⟨_, hWord, hDigits⟩ | ⟨_, _, hWord, hLetters⟩ | ⟨c, rfl, _, _, _, hBlank⟩
  · obtain ⟨c, rest, rfl⟩ := List.exists_cons_of_ne_nil hWord
    exact ⟨c, rest, rfl, isBlank_eq_false_of_isDigit (hDigits c List.mem_cons_self)⟩
  · obtain ⟨c, rest, rfl⟩ := List.exists_cons_of_ne_nil hWord
    exact ⟨c, rest, rfl, isBlank_eq_false_of_isLetter (hLetters c List.mem_cons_self)⟩
  · exact ⟨c, [], rfl, hBlank⟩

theorem Fits.newline_notMem {kind : Token.Kind} {word : List Char} (h : kind.Fits word) :
    '\n' ∉ word := by
  intro hMem
  rcases h.cases with ⟨_, _, hDigits⟩ | ⟨_, _, _, hLetters⟩ | ⟨c, rfl, _, _, _, hBlank⟩
  · cases hDigits _ hMem
  · cases hLetters _ hMem
  · obtain rfl := List.mem_singleton.mp hMem
    cases hBlank

end Token.Kind

theorem munch?_fits {c : Char} {text word rest : List Char} {kind : Token.Kind}
    (h : munch? c text = some (kind, word, rest)) : kind.Fits word ∧ kind.Stops rest := by
  unfold munch? at h
  split at h
  · rename_i hDigit
    cases h
    exact ⟨⟨by simp, forall_cons_takeWhile hDigit text⟩, dropWhile_head text⟩
  split at h
  · rename_i hLetter
    cases h
    obtain ⟨hFits, hGrows⟩ :=
      Token.Kind.fits_ofWord (List.cons_ne_nil _ _) (forall_cons_takeWhile hLetter text)
    refine ⟨hFits, ?_⟩
    rw [Token.Kind.Stops, hGrows]
    exact dropWhile_head text
  · obtain ⟨_, hMark, hEq⟩ := Option.map_eq_some_iff.mp h
    cases hEq
    obtain ⟨hFits, hGrows⟩ := Token.Kind.fits_ofMark? hMark
    refine ⟨hFits, ?_⟩
    rw [Token.Kind.Stops, hGrows]
    exact fun _ _ => rfl

/-- No other word is possible: a fitting word that the text does not go on is the one taken. -/
theorem munch?_of_fits {c : Char} {text word rest : List Char} {kind : Token.Kind}
    (hText : c :: text = word ++ rest) (hFits : kind.Fits word) (hStops : kind.Stops rest) :
    munch? c text = some (kind, word, rest) := by
  unfold munch?
  rcases hFits.cases with ⟨rfl, hWord, hDigits⟩ | ⟨hKind, hGrows, hWord, hLetters⟩ |
    ⟨d, rfl, hMark, hDigit, hLetter, _⟩
  · obtain ⟨d, digits, rfl⟩ := List.exists_cons_of_ne_nil hWord
    obtain ⟨rfl, rfl⟩ : c = d ∧ text = digits ++ rest := List.cons.inj hText
    have hAll : ∀ d ∈ digits, isDigit d = true := fun d hd => hDigits d (List.mem_cons_of_mem c hd)
    obtain ⟨hTake, hDrop⟩ := takeWhile_run hAll hStops
    rw [if_pos (hDigits c List.mem_cons_self), hTake, hDrop]
  · obtain ⟨d, letters, rfl⟩ := List.exists_cons_of_ne_nil hWord
    obtain ⟨rfl, rfl⟩ : c = d ∧ text = letters ++ rest := List.cons.inj hText
    have hLetter := hLetters c List.mem_cons_self
    have hAll : ∀ d ∈ letters, isLetter d = true := fun d hd => hLetters d (List.mem_cons_of_mem c hd)
    rw [Token.Kind.Stops, hGrows] at hStops
    obtain ⟨hTake, hDrop⟩ := takeWhile_run hAll hStops
    rw [if_neg (by simp [isDigit_eq_false_of_isLetter hLetter]), if_pos hLetter, hTake, hDrop, hKind]
  · obtain ⟨rfl, rfl⟩ : c = d ∧ text = rest := List.cons.inj hText
    rw [if_neg (by simp [hDigit]), if_neg (by simp [hLetter]), hMark]
    rfl

theorem munch?_eq_none_of_isLegal {c : Char} (h : isLegal c = false) (text : List Char) :
    munch? c text = none := by
  simp only [isLegal, Bool.or_eq_false_iff] at h
  obtain ⟨⟨⟨hLetter, hDigit⟩, hMark⟩, _⟩ := h
  have hNone : Token.Kind.ofMark? c = none := by
    unfold Token.Kind.ofMark?
    split <;> first | rfl | simp [isMark] at hMark
  simp [munch?, hLetter, hDigit, hNone]

namespace Scanner

theorem next_blank {c : Char} (h : isBlank c = true) (rest : List Char) (p : Position) :
    next ⟨c :: rest, p⟩ = next ⟨rest, p.advance c⟩ := by
  simp [next, skipBlanks, h]

theorem skipBlanks_of_head {c : Char} (h : isBlank c = false) (rest : List Char) (p : Position) :
    skipBlanks ⟨c :: rest, p⟩ = ⟨c :: rest, p⟩ := by
  simp [skipBlanks, h]

theorem next_word {kind : Token.Kind} {word rest : List Char} (hFits : kind.Fits word)
    (hStops : kind.Stops rest) (p : Position) :
    next ⟨word ++ rest, p⟩ =
      (.ok ⟨kind, String.ofList word, p, p.after word⟩, ⟨rest, p.after word⟩) := by
  obtain ⟨c, tail, hWord, hBlank⟩ := hFits.exists_head
  have hText : c :: (tail ++ rest) = word ++ rest := by rw [hWord, List.cons_append]
  rw [next, ← hText, skipBlanks_of_head hBlank, take]
  simp only [munch?_of_fits hText hFits hStops]

theorem next_illegal {c : Char} (h : isLegal c = false) (rest : List Char) (p : Position) :
    next ⟨c :: rest, p⟩ = (.error ⟨p, c⟩, ⟨rest, p.advance c⟩) := by
  have hBlank : isBlank c = false := by
    simp only [isLegal, Bool.or_eq_false_iff] at h
    exact h.2
  have hNone := munch?_eq_none_of_isLegal h rest
  simp only [next, skipBlanks_of_head hBlank, take, hNone]

/-- Scanning goes from one scanner to another and finds the given tokens on the way. -/
def Passes (s : Scanner) (ts : List Token) (s' : Scanner) : Prop :=
  ∀ done, s.tokensFrom done = s'.tokensFrom (done ++ ts)

theorem Passes.trans {s s' s'' : Scanner} {ts us : List Token} (h : s.Passes ts s')
    (h' : s'.Passes us s'') : s.Passes (ts ++ us) s'' := by
  intro done
  have hAssoc : done ++ ts ++ us = done ++ (ts ++ us) := Array.ext' (by simp)
  rw [h done, h' (done ++ ts), hAssoc]

theorem passes_nil (s : Scanner) : s.Passes [] s := by
  intro done
  simp

theorem passes_blank {c : Char} (h : isBlank c = true) (rest : List Char) (p : Position) :
    Passes ⟨c :: rest, p⟩ [] ⟨rest, p.advance c⟩ := by
  intro done
  rw [tokensFrom_eq, next_blank h, ← tokensFrom_eq]
  simp

theorem passes_word {kind : Token.Kind} {word rest : List Char} (hFits : kind.Fits word)
    (hStops : kind.Stops rest) (p : Position) :
    Passes ⟨word ++ rest, p⟩ [⟨kind, String.ofList word, p, p.after word⟩] ⟨rest, p.after word⟩ := by
  intro done
  have hEnd : Token.isEnd ⟨kind, String.ofList word, p, p.after word⟩ = false := by
    simpa [Token.isEnd] using hFits.ne_endOfInput
  rw [tokensFrom_eq, next_word hFits hStops]
  simp [hEnd]

theorem tokensFrom_end (p : Position) (done : Array Token) :
    tokensFrom ⟨[], p⟩ done = .ok (done.toList ++ [.endAt p]) := by
  rw [tokensFrom_eq]
  simp [next, skipBlanks, take]

end Scanner

theorem tokenize_of_passes {text : String} {ts : List Token} {p : Position}
    (h : Scanner.Passes ⟨text.toList, .first⟩ ts ⟨[], p⟩) :
    tokenize text = .ok (ts ++ [.endAt p]) := by
  have hScan := h #[]
  rw [Scanner.tokensFrom_end] at hScan
  simpa [tokenize, Scanner.ofText] using hScan

end Reckoner
