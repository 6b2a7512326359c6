import Mathlib
import Reckoner.Proofs.Scanning.Words

/-! # How a source is cut into words

A cut of a text lists its words in order, with the blanks in front of the first word and behind each
one. Two runs of digits or two runs of letters have a blank between them; other words may touch. A text
is scanned if and only if it has a cut, the tokens are the words of the cut, and the cut is the only one.
-/
namespace Reckoner
set_option autoImplicit false

open Alphabet

/-- A token without its place. -/
structure Word where
  kind : Token.Kind
  text : List Char
deriving DecidableEq

def Token.word (t : Token) : Word := ⟨t.kind, t.lexeme.toList⟩

namespace Word

def Fits (w : Word) : Prop := w.kind.Fits w.text

/-- Both words are runs of digits, or both are runs of letters. -/
def Joins (u v : Word) : Prop :=
  (∀ c ∈ u.text ++ v.text, isDigit c = true) ∨ ∀ c ∈ u.text ++ v.text, isLetter c = true

end Word

theorem Token.isEnd_of_fits {t : Token} (h : t.word.Fits) : t.isEnd = false := by
  have hKind : t.kind ≠ .endOfInput := Token.Kind.Fits.ne_endOfInput h
  simpa [Token.isEnd] using hKind

namespace Token.Kind

theorem Fits.same_class {kind : Token.Kind} {word : List Char} (h : kind.Fits word) {c d : Char}
    (hc : c ∈ word) (hd : d ∈ word) : isDigit c = isDigit d ∧ isLetter c = isLetter d := by
  rcases h.cases with ⟨_, _, hDigits⟩ | ⟨_, _, _, hLetters⟩ | ⟨mark, rfl, _⟩
  · have hFirst := hDigits c hc
    have hSecond := hDigits d hd
    rw [hFirst, hSecond, isLetter_eq_false_of_isDigit hFirst, isLetter_eq_false_of_isDigit hSecond]
    exact ⟨rfl, rfl⟩
  · have hFirst := hLetters c hc
    have hSecond := hLetters d hd
    rw [hFirst, hSecond, isDigit_eq_false_of_isLetter hFirst, isDigit_eq_false_of_isLetter hSecond]
    exact ⟨rfl, rfl⟩
  · rw [List.mem_singleton.mp hc, List.mem_singleton.mp hd]
    exact ⟨rfl, rfl⟩

theorem Fits.grows_iff {kind : Token.Kind} {word : List Char} (h : kind.Fits word) {d : Char}
    (hd : d ∈ word) (c : Char) : kind.grows c = true ↔
      (isDigit d = true ∧ isDigit c = true) ∨ (isLetter d = true ∧ isLetter c = true) := by
  rcases h.cases with ⟨rfl, _, hDigits⟩ | ⟨_, hGrows, _, hLetters⟩ |
    ⟨mark, rfl, hMark, hDigit, hLetter, _⟩
  · have hFirst := hDigits d hd
    simp [grows, hFirst, isLetter_eq_false_of_isDigit hFirst]
  · have hFirst := hLetters d hd
    simp [hGrows, hFirst, isDigit_eq_false_of_isLetter hFirst]
  · obtain rfl := List.mem_singleton.mp hd
    simp [(fits_ofMark? hMark).2, hDigit, hLetter]

theorem grows_eq_false_of_isBlank {c : Char} (h : isBlank c = true) (kind : Token.Kind) :
    kind.grows c = false := by
  have hNeither : isLetter c = false ∧ isDigit c = false := by
    rcases (isBlank_iff c).mp h with rfl | rfl | rfl <;> exact ⟨rfl, rfl⟩
  exact grows_eq_false hNeither.1 hNeither.2 kind

end Token.Kind

namespace Word

theorem joins_iff {u v : Word} (hu : u.Fits) (hv : v.Fits) {c d : Char} (hc : c ∈ u.text)
    (hd : d ∈ v.text) : u.Joins v ↔
      (isDigit c = true ∧ isDigit d = true) ∨ (isLetter c = true ∧ isLetter d = true) := by
  constructor
  · rintro (hDigits | hLetters)
    · exact .inl ⟨hDigits c (by simp [hc]), hDigits d (by simp [hd])⟩
    · exact .inr ⟨hLetters c (by simp [hc]), hLetters d (by simp [hd])⟩
  · rintro (⟨hFirst, hSecond⟩ | ⟨hFirst, hSecond⟩)
    · left
      intro e he
      rcases List.mem_append.mp he with hMem | hMem
      · rw [(hu.same_class hMem hc).1, hFirst]
      · rw [(hv.same_class hMem hd).1, hSecond]
    · right
      intro e he
      rcases List.mem_append.mp he with hMem | hMem
      · rw [(hu.same_class hMem hc).2, hFirst]
      · rw [(hv.same_class hMem hd).2, hSecond]

/-- A word ends where the next one begins if and only if the two need no blank between them. -/
theorem stops_iff {u v : Word} (hu : u.Fits) (hv : v.Fits) (rest : List Char) :
    u.kind.Stops (v.text ++ rest) ↔ ¬u.Joins v := by
  obtain ⟨c, _, hText, _⟩ := Token.Kind.Fits.exists_head hu
  obtain ⟨d, tail, hText', _⟩ := Token.Kind.Fits.exists_head hv
  have hc : c ∈ u.text := by simp [hText]
  have hd : d ∈ v.text := by simp [hText']
  rw [joins_iff hu hv hc hd, ← Token.Kind.Fits.grows_iff hu hc, hText', List.cons_append]
  simp [Token.Kind.Stops]

end Word

/-- `Cut source lead parts`: the text consists of the blanks `lead` and then of each word with the
blanks behind it. -/
structure Cut (source lead : List Char) (parts : List (Word × List Char)) : Prop where
  source_eq : source = lead ++ parts.flatMap fun part => part.1.text ++ part.2
  lead_blank : ∀ c ∈ lead, isBlank c = true
  gap_blank : ∀ part ∈ parts, ∀ c ∈ part.2, isBlank c = true
  fits : ∀ part ∈ parts, part.1.Fits
  apart : parts.IsChain fun part next => part.2 = [] → ¬part.1.Joins next.1

/-- The text can be cut into the given words. -/
def HasWords (source : List Char) (words : List Word) : Prop :=
  ∃ lead parts, Cut source lead parts ∧ parts.map Prod.fst = words

theorem cut_nil_iff {source lead : List Char} :
    Cut source lead [] ↔ source = lead ∧ ∀ c ∈ lead, isBlank c = true := by
  constructor
  · intro h
    exact ⟨by simpa using h.source_eq, h.lead_blank⟩
  · rintro ⟨rfl, hBlank⟩
    exact ⟨by simp, hBlank, by simp, by simp, .nil⟩

theorem Cut.stops {rest gap : List Char} {parts : List (Word × List Char)} (h : Cut rest gap parts)
    {w : Word} (hFits : w.Fits) (hApart : ∀ next ∈ parts.head?, gap = [] → ¬w.Joins next.1) :
    w.kind.Stops rest := by
  rw [h.source_eq]
  cases gap with
  | cons c gap =>
    intro d hd
    obtain rfl : c = d := Option.some.inj hd
    exact Token.Kind.grows_eq_false_of_isBlank (h.lead_blank c List.mem_cons_self) w.kind
  | nil =>
    cases parts with
    | nil => simp [Token.Kind.Stops]
    | cons next parts =>
      have hNext : next.1.Fits := h.fits next List.mem_cons_self
      rw [List.nil_append, List.flatMap_cons, List.append_assoc, Word.stops_iff hFits hNext]
      exact hApart next rfl rfl

/-- A cut is a first word that the rest does not go on, and a cut of the rest. -/
theorem cut_cons_iff {source lead gap : List Char} {w : Word} {parts : List (Word × List Char)} :
    Cut source lead ((w, gap) :: parts) ↔ (∀ c ∈ lead, isBlank c = true) ∧ w.Fits ∧
      ∃ rest, source = lead ++ (w.text ++ rest) ∧ w.kind.Stops rest ∧ Cut rest gap parts := by
  constructor
  · intro h
    have hFits : w.Fits := h.fits (w, gap) List.mem_cons_self
    have hRest : Cut (gap ++ parts.flatMap fun part => part.1.text ++ part.2) gap parts := by
      refine ⟨rfl, h.gap_blank (w, gap) List.mem_cons_self, ?_, ?_, h.apart.tail⟩
      · exact fun part hPart => h.gap_blank part (List.mem_cons_of_mem _ hPart)
      · exact fun part hPart => h.fits part (List.mem_cons_of_mem _ hPart)
    refine ⟨h.lead_blank, hFits, _, by simp [h.source_eq], hRest.stops hFits ?_, hRest⟩
    intro next hNext
    obtain ⟨others, rfl⟩ := List.head?_eq_some_iff.mp hNext
    exact (List.isChain_cons_cons.mp h.apart).1
  · rintro ⟨hBlank, hFits, rest, rfl, hStops, hRest⟩
    refine ⟨by simp [hRest.source_eq], hBlank, ?_, ?_, ?_⟩
    · exact List.forall_mem_cons.mpr ⟨hRest.lead_blank, hRest.gap_blank⟩
    · exact List.forall_mem_cons.mpr ⟨hFits, hRest.fits⟩
    · cases parts with
      | nil => exact .singleton _
      | cons next parts =>
        refine .cons_cons ?_ hRest.apart
        rintro (rfl : gap = [])
        have hNext : next.1.Fits := hRest.fits next List.mem_cons_self
        rw [hRest.source_eq, List.nil_append, List.flatMap_cons, List.append_assoc,
          Word.stops_iff hFits hNext] at hStops
        exact hStops

theorem HasWords.behind_blanks {lead : List Char} (h : ∀ c ∈ lead, isBlank c = true)
    {text : List Char} {words : List Word} (hText : HasWords text words) :
    HasWords (lead ++ text) words := by
  obtain ⟨gap, parts, hCut, rfl⟩ := hText
  refine ⟨lead ++ gap, parts, ⟨?_, ?_, hCut.gap_blank, hCut.fits, hCut.apart⟩, rfl⟩
  · rw [hCut.source_eq, List.append_assoc]
  · exact List.forall_mem_append.mpr ⟨h, hCut.lead_blank⟩

theorem HasWords.cons_blank {c : Char} (h : isBlank c = true) {text : List Char} {words : List Word}
    (hText : HasWords text words) : HasWords (c :: text) words :=
  hText.behind_blanks (List.forall_mem_singleton.mpr h)

theorem HasWords.cons_word {w : Word} (hFits : w.Fits) {text : List Char} (hStops : w.kind.Stops text)
    {words : List Word} (hText : HasWords text words) : HasWords (w.text ++ text) (w :: words) := by
  obtain ⟨lead, parts, hCut, rfl⟩ := hText
  refine ⟨[], (w, lead) :: parts, ?_, rfl⟩
  exact cut_cons_iff.mpr ⟨by simp, hFits, text, rfl, hStops, hCut⟩

theorem Cut.mem_source {source lead : List Char} {parts : List (Word × List Char)}
    (h : Cut source lead parts) {c : Char} (hc : c ∈ source) :
    isBlank c = true ∨ ∃ w ∈ parts.map Prod.fst, c ∈ w.text := by
  rw [h.source_eq] at hc
  rcases List.mem_append.mp hc with hLead | hParts
  · exact .inl (h.lead_blank c hLead)
  · obtain ⟨part, hPart, hMem⟩ := List.mem_flatMap.mp hParts
    rcases List.mem_append.mp hMem with hText | hGap
    · exact .inr ⟨part.1, List.mem_map_of_mem hPart, hText⟩
    · exact .inl (h.gap_blank part hPart c hGap)

namespace Scanner

theorem passes_blanks {gap : List Char} (h : ∀ c ∈ gap, isBlank c = true) (rest : List Char)
    (p : Position) : Passes ⟨gap ++ rest, p⟩ [] ⟨rest, p.after gap⟩ := by
  induction gap generalizing p with
  | nil => exact passes_nil _
  | cons c gap ih =>
    have hHead := passes_blank (h c List.mem_cons_self) (gap ++ rest) p
    exact hHead.trans (ih (fun d hd => h d (List.mem_cons_of_mem c hd)) _)

/-- Scanning finds the words of a cut, wherever the text stands. -/
theorem exists_passes_of_cut {source lead : List Char} {parts : List (Word × List Char)}
    (h : Cut source lead parts) (p : Position) :
    ∃ ts p', Passes ⟨source, p⟩ ts ⟨[], p'⟩ ∧ ts.map Token.word = parts.map Prod.fst := by
  induction parts generalizing source lead p with
  | nil =>
    obtain ⟨rfl, hBlank⟩ := cut_nil_iff.mp h
    have hPass := passes_blanks hBlank [] p
    rw [List.append_nil] at hPass
    exact ⟨[], _, hPass, rfl⟩
  | cons part parts ih =>
    obtain ⟨hBlank, hFits, rest, rfl, hStops, hRest⟩ := cut_cons_iff.mp h
    have hWord := passes_word hFits hStops (p.after lead)
    obtain ⟨ts, p', hPass, hWords⟩ := ih hRest ((p.after lead).after part.1.text)
    refine ⟨_, p', (passes_blanks hBlank _ p).trans (hWord.trans hPass), ?_⟩
    simp [Token.word, hWords]

/-- A scan finds the closing token behind blanks, or a word that the rest does not go on. -/
theorem next_cases {s after : Scanner} {t : Token} (h : s.next = (.ok t, after)) :
    (∃ p, t = .endAt p ∧ ∀ c ∈ s.rest, isBlank c = true) ∨
      ∃ lead, s.rest = lead ++ (t.word.text ++ after.rest) ∧ (∀ c ∈ lead, isBlank c = true) ∧
        t.word.Fits ∧ t.kind.Stops after.rest := by
  have hSplit := List.takeWhile_append_dropWhile (p := isBlank) (l := s.rest)
  have hBlank : ∀ c ∈ s.rest.takeWhile isBlank, isBlank c = true :=
    List.all_eq_true.mp List.all_takeWhile
  unfold next take at h
  split at h
  · rename_i hRest
    cases h
    left
    refine ⟨_, rfl, ?_⟩
    rwa [← hSplit, show s.rest.dropWhile isBlank = [] from hRest, List.append_nil]
  · rename_i c text hRest
    split at h
    · rename_i kind word rest hMunch
      cases h
      right
      obtain ⟨hFits, hStops⟩ := munch?_fits hMunch
      refine ⟨s.rest.takeWhile isBlank, ?_, hBlank, ?_, hStops⟩
      · rw [Token.word, String.toList_ofList, ← munch?_append hMunch, ← hRest]
        exact hSplit.symm
      · rw [Token.word, String.toList_ofList]
        exact hFits
    · cases h

theorem exists_cut_of_tokensFrom (s : Scanner) (done : Array Token) {tokens : List Token}
    (h : s.tokensFrom done = .ok tokens) :
    ∃ ts p lead parts, tokens = done.toList ++ (ts ++ [.endAt p]) ∧ Cut s.rest lead parts ∧
      parts.map Prod.fst = ts.map Token.word := by
  rw [tokensFrom_eq] at h
  split at h
  · cases h
  rename_i t after hNext
  rcases next_cases hNext with ⟨p, rfl, hBlank⟩ | ⟨lead, hSource, hBlank, hFits, hStops⟩
  · rw [if_pos (Token.isEnd_endAt p)] at h
    cases h
    exact ⟨[], p, s.rest, [], by simp, cut_nil_iff.mpr ⟨rfl, hBlank⟩, rfl⟩
  · have hEnd := Token.isEnd_of_fits hFits
    have := next_length hNext hEnd
    rw [if_neg (by simp [hEnd])] at h
    obtain ⟨ts, p, gap, parts, rfl, hCut, hWords⟩ := exists_cut_of_tokensFrom after (done.push t) h
    refine ⟨t :: ts, p, lead, (t.word, gap) :: parts, by simp, ?_, by simp [hWords]⟩
    exact cut_cons_iff.mpr ⟨hBlank, hFits, after.rest, hSource, hStops, hCut⟩
termination_by s.rest.length

end Scanner

theorem exists_hasWords_of_tokenize {source : String} {tokens : List Token}
    (h : tokenize source = .ok tokens) :
    ∃ ts p, tokens = ts ++ [.endAt p] ∧ HasWords source.toList (ts.map Token.word) := by
  obtain ⟨ts, p, lead, parts, rfl, hCut, hWords⟩ := Scanner.exists_cut_of_tokensFrom _ _ h
  exact ⟨ts, p, by simp, lead, parts, hCut, hWords⟩

theorem exists_tokenize_of_hasWords {source : String} {words : List Word}
    (h : HasWords source.toList words) :
    ∃ ts p, tokenize source = .ok (ts ++ [.endAt p]) ∧ ts.map Token.word = words := by
  obtain ⟨lead, parts, hCut, rfl⟩ := h
  obtain ⟨ts, p, hPass, hWords⟩ := Scanner.exists_passes_of_cut hCut .first
  exact ⟨ts, p, tokenize_of_passes hPass, hWords⟩

theorem HasWords.fits {source : List Char} {words : List Word} (h : HasWords source words) :
    ∀ w ∈ words, w.Fits := by
  obtain ⟨lead, parts, hCut, rfl⟩ := h
  intro w hw
  obtain ⟨part, hPart, rfl⟩ := List.mem_map.mp hw
  exact hCut.fits part hPart

theorem HasWords.unique {source : List Char} {words words' : List Word} (h : HasWords source words)
    (h' : HasWords source words') : words = words' := by
  rw [← String.toList_ofList (l := source)] at h h'
  obtain ⟨ts, p, hTokens, rfl⟩ := exists_tokenize_of_hasWords h
  obtain ⟨us, q, hTokens', rfl⟩ := exists_tokenize_of_hasWords h'
  -- both cuts are found by the one scan of the text
  have hSame := Except.ok.inj (hTokens.symm.trans hTokens')
  rw [List.append_inj_left' hSame rfl]

theorem tokenize_fits {source : String} {tokens : List Token} (h : tokenize source = .ok tokens) :
    ∀ t ∈ tokens, t.isEnd = false → t.word.Fits := by
  obtain ⟨ts, p, rfl, hWords⟩ := exists_hasWords_of_tokenize h
  intro t ht hEnd
  rcases List.mem_append.mp ht with hMem | hLast
  · exact hWords.fits _ (List.mem_map_of_mem hMem)
  · obtain rfl := List.mem_singleton.mp hLast
    cases hEnd

/-- The tokens of a source are the words of a cut and one closing token behind them, and no other words
make a cut of the source. -/
theorem tokenize_cuts_uniquely {source : String} {tokens : List Token}
    (h : tokenize source = .ok tokens) :
    ∃ ts p, tokens = ts ++ [.endAt p] ∧ (∀ t ∈ ts, t.isEnd = false) ∧
      (∃ lead parts, Cut source.toList lead parts ∧ parts.map Prod.fst = ts.map Token.word) ∧
      ∀ lead parts, Cut source.toList lead parts → parts.map Prod.fst = ts.map Token.word := by
  obtain ⟨ts, p, rfl, hWords⟩ := exists_hasWords_of_tokenize h
  refine ⟨ts, p, rfl, ?_, hWords, ?_⟩
  · intro t ht
    exact Token.isEnd_of_fits (hWords.fits _ (List.mem_map_of_mem ht))
  · intro lead parts hCut
    exact HasWords.unique ⟨lead, parts, hCut, rfl⟩ hWords

/-- A reserved word is only a word of its own, and a digit and a letter may touch. -/
theorem tokenize_cuts_uniquely_reserved :
    let ts : List Token := [⟨.identifier, "nullvar", ⟨1, 1⟩, ⟨1, 8⟩⟩, ⟨.number, "1", ⟨1, 9⟩, ⟨1, 10⟩⟩,
      ⟨.var, "var", ⟨1, 10⟩, ⟨1, 13⟩⟩]
    tokenize "nullvar 1var" = .ok (ts ++ [.endAt ⟨1, 13⟩]) ∧
      (∃ lead parts, Cut "nullvar 1var".toList lead parts ∧
        parts.map Prod.fst = ts.map Token.word) ∧
      ∀ lead parts, Cut "nullvar 1var".toList lead parts →
        parts.map Prod.fst = ts.map Token.word := by
  intro ts
  have hTokens : tokenize "nullvar 1var" = .ok (ts ++ [.endAt ⟨1, 13⟩]) := by cbv
  obtain ⟨us, p, hForm, _, hCut, hUnique⟩ := tokenize_cuts_uniquely hTokens
  obtain rfl : ts = us := List.append_inj_left' hForm rfl
  exact ⟨hTokens, hCut, hUnique⟩

end Reckoner
