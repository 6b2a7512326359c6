import Reckoner.Proofs.Scanning.Findings

/-! # Where tokens stand

A token carries the positions between which its word stands. They are those found by counting lines and
columns of the text that has been read when the word begins and when it ends, so tokens come in reading
order and none of them overlaps the next.
-/
namespace Reckoner
set_option autoImplicit false

open Alphabet

/-- The word of the token stands right behind a text. -/
structure Token.StandsBehind (t : Token) (text : List Char) : Prop where
  start_isBehind : t.start.IsBehind text
  stop_isBehind : t.stop.IsBehind (text ++ t.lexeme.toList)

theorem Token.standsBehind_of_after {t : Token} {pre text : List Char}
    (hStart : t.start = Position.first.after pre)
    (hStop : t.stop = Position.first.after (pre ++ t.lexeme.toList))
    (hPrefix : pre ++ t.lexeme.toList <+: text) (hShort : text.length < 2 ^ 31 - 1) :
    t.StandsBehind pre := by
  constructor
  · rw [hStart]
    exact Position.isBehind_after_of_prefix ((List.prefix_append pre _).trans hPrefix) hShort
  · rw [hStop]
    exact Position.isBehind_after_of_prefix hPrefix hShort

namespace Scanner

variable {source behind : List Char} {p : Position}

theorem Finds.exists_place (before : List Char) (front : List Token) {back : List Token} {t : Token}
    (h : Finds ⟨source, Position.first.after before⟩ ((front ++ t :: back).map .ok) ⟨behind, p⟩) :
    ∃ pre post, source = pre ++ (t.lexeme.toList ++ (post ++ behind)) ∧
      (reached front.length ⟨source, Position.first.after before⟩).next =
        (.ok t, ⟨post ++ behind, t.stop⟩) ∧
      HasWords pre (front.map Token.word) ∧ HasWords post (back.map Token.word) ∧
      t.start = Position.first.after (before ++ pre) ∧
      t.stop = Position.first.after (before ++ pre ++ t.lexeme.toList) ∧
      Finds ⟨post ++ behind, t.stop⟩ (back.map .ok) ⟨behind, p⟩ := by
  rw [List.map_append, List.map_cons] at h
  obtain ⟨rest, hFront, hNext, hStop, _, hBack⟩ := h.split
  rw [List.length_map] at hNext
  obtain ⟨pre, hSource, hPosition, hPre⟩ := hFront.exists_read
  obtain ⟨post, rfl, _, hPost⟩ := hBack.exists_read
  have hStart : t.start = Position.first.after (before ++ pre) :=
    hPosition.trans (Position.after_append _ _ _).symm
  rw [hStart, ← Position.after_append] at hStop
  exact ⟨pre, post, hSource, hNext, hPre, hPost, hStart, hStop, hBack⟩

/-- What is found first, a token or the end, begins at the scanner's position or behind it. -/
theorem Finds.notAfter (before : List Char) {ts : List Token}
    (h : Finds ⟨source, Position.first.after before⟩ (ts.map .ok) ⟨[], p⟩)
    (hShort : (before ++ source).length < 2 ^ 31 - 1) :
    ∀ u ∈ (ts ++ [Token.endAt p]).head?, (Position.first.after before).NotAfter u.start := by
  intro u hu
  obtain ⟨gap, rest, rfl, hStart⟩ : ∃ gap rest, source = gap ++ rest ∧
      u.start = Position.first.after (before ++ gap) := by
    cases ts with
    | nil =>
      obtain rfl : Token.endAt p = u := Option.some.inj hu
      obtain ⟨read, hRead, hPosition, _⟩ := h.exists_read
      exact ⟨read, [], hRead, hPosition.trans (Position.after_append _ _ _).symm⟩
    | cons t ts =>
      obtain rfl : t = u := Option.some.inj hu
      obtain ⟨pre, post, hSource, _, _, _, hStart, _⟩ := h.exists_place before []
      exact ⟨pre, _, hSource, hStart⟩
  rw [hStart]
  apply Position.IsBehind.notAfter
  · exact Position.isBehind_after_of_prefix (List.prefix_append before _) hShort
  · exact Position.isBehind_after_of_prefix ⟨rest, List.append_assoc before gap rest⟩ hShort

theorem Finds.isChain (before : List Char) {ts : List Token}
    (h : Finds ⟨source, Position.first.after before⟩ (ts.map .ok) ⟨[], p⟩)
    (hShort : (before ++ source).length < 2 ^ 31 - 1) :
    (ts ++ [Token.endAt p]).IsChain fun t u => t.stop.NotAfter u.start := by
  induction ts generalizing before source with
  | nil => exact .singleton _
  | cons t ts ih =>
    obtain ⟨pre, post, rfl, _, _, _, _, hStop, hRest⟩ := h.exists_place before []
    rw [List.append_nil, hStop] at hRest
    have hLess : (before ++ pre ++ t.lexeme.toList ++ post).length < 2 ^ 31 - 1 := by
      simpa using hShort
    rw [List.cons_append, List.isChain_cons, hStop]
    exact ⟨hRest.notAfter _ hLess, ih _ hRest hLess⟩

theorem exists_read_next (s : Scanner) :
    ∃ read, s.rest = read ++ s.next.2.rest ∧ s.next.2.position = s.position.after read := by
  have hSplit := List.takeWhile_append_dropWhile (p := isBlank) (l := s.rest)
  unfold next take
  split
  · rename_i hRest
    exact ⟨s.rest.takeWhile isBlank, hSplit.symm, rfl⟩
  · rename_i c text hRest
    have hText : s.rest = s.rest.takeWhile isBlank ++ c :: text := by
      rw [← hRest]
      exact hSplit.symm
    split
    · rename_i kind word rest hMunch
      refine ⟨s.rest.takeWhile isBlank ++ word, ?_, (Position.after_append _ _ _).symm⟩
      rw [List.append_assoc, ← munch?_append hMunch]
      exact hText
    · refine ⟨s.rest.takeWhile isBlank ++ [c], ?_, ?_⟩
      · rw [List.append_assoc]
        exact hText
      · rw [Position.after_append]
        rfl

theorem exists_read_reached (count : Nat) (s : Scanner) :
    ∃ read, s.rest = read ++ (s.reached count).rest ∧
      (s.reached count).position = s.position.after read := by
  induction count generalizing s with
  | zero => exact ⟨[], rfl, rfl⟩
  | succ count ih =>
    obtain ⟨first, hFirst, hPosition⟩ := s.exists_read_next
    obtain ⟨read, hRead, hReached⟩ := ih s.next.2
    refine ⟨first ++ read, ?_, ?_⟩
    · rw [List.append_assoc, hFirst, hRead]
      rfl
    · rw [Position.after_append, ← hPosition]
      exact hReached

end Scanner

/-- Every token of a short source stands where the scan that gave it found its word, and the closing one
at the end. A word takes one column for each of its characters, tokens come in reading order, and no
counter has overflowed, neither at any place of the source nor in the scanner that any number of scans
leave behind. -/
theorem tokenize_places_tokens {source : String} {tokens : List Token}
    (hShort : source.length < 2 ^ 31 - 1) (h : tokenize source = .ok tokens) :
    ∃ ts p, tokens = ts ++ [.endAt p] ∧ p.IsBehind source.toList ∧
      (∀ front t back, ts = front ++ t :: back → ∃ pre s,
        ((Scanner.ofText source).reached front.length).next = (.ok t, s) ∧
        source.toList = pre ++ (t.lexeme.toList ++ s.rest) ∧ t.StandsBehind pre) ∧
      (∀ t ∈ ts, t.isEnd = false ∧ t.stop.line = t.start.line ∧
        t.stop.column.toInt - t.start.column.toInt = t.lexeme.length) ∧
      (tokens.IsChain fun t u => t.stop.NotAfter u.start) ∧
      (∀ pre, pre <+: source.toList → (Position.first.after pre).IsBehind pre) ∧
      ∀ count, let s := (Scanner.ofText source).reached count
        ∃ read, source.toList = read ++ s.rest ∧ s.position.IsBehind read := by
  rw [← String.length_toList] at hShort
  have hExact : ∀ pre, pre <+: source.toList → (Position.first.after pre).IsBehind pre :=
    fun pre hPrefix => Position.isBehind_after_of_prefix hPrefix hShort
  obtain ⟨ts, hTokens, hFinds⟩ := exists_tokenize_of_legal (forall_isLegal_of_tokenize h)
  obtain rfl := Except.ok.inj (h.symm.trans hTokens)
  have hPlaces : ∀ front t back, ts = front ++ t :: back → ∃ pre s,
      ((Scanner.ofText source).reached front.length).next = (.ok t, s) ∧
      source.toList = pre ++ (t.lexeme.toList ++ s.rest) ∧ t.StandsBehind pre := by
    rintro front t back rfl
    obtain ⟨pre, post, hSource, hNext, _, _, hStart, hStop, _⟩ := hFinds.exists_place [] front
    refine ⟨pre, _, hNext, hSource, Token.standsBehind_of_after hStart hStop ?_ hShort⟩
    exact ⟨post ++ [], by simp [hSource]⟩
  refine ⟨ts, _, rfl, hExact _ (List.prefix_refl _), hPlaces, ?_, hFinds.isChain [] hShort, hExact, ?_⟩
  · intro t ht
    obtain ⟨front, back, hSplit⟩ := List.append_of_mem ht
    obtain ⟨pre, s, _, _, hStands⟩ := hPlaces front t back hSplit
    obtain ⟨_, _, _, hWords⟩ := hFinds.exists_read
    have hFits : t.word.Fits := hWords.fits _ (List.mem_map_of_mem ht)
    obtain ⟨hLine, hColumn⟩ :=
      hStands.start_isBehind.of_append hStands.stop_isBehind (Token.Kind.Fits.newline_notMem hFits)
    rw [String.length_toList] at hColumn
    exact ⟨Token.isEnd_of_fits hFits, hLine, hColumn⟩
  · intro count s
    obtain ⟨read, hRead, hPosition⟩ := Scanner.exists_read_reached count (Scanner.ofText source)
    refine ⟨read, hRead, ?_⟩
    rw [hPosition]
    exact hExact read ⟨_, hRead.symm⟩

/-- Words that touch, blanks in front of a word, and a newline behind the last one. -/
theorem tokenize_places_tokens_lines :
    let source := "a\n\t(bc\n"
    let ts : List Token := [⟨.identifier, "a", ⟨1, 1⟩, ⟨1, 2⟩⟩, ⟨.openParen, "(", ⟨2, 2⟩, ⟨2, 3⟩⟩,
      ⟨.identifier, "bc", ⟨2, 3⟩, ⟨2, 5⟩⟩]
    source.length < 2 ^ 31 - 1 ∧ tokenize source = .ok (ts ++ [.endAt ⟨3, 1⟩]) ∧
      (∀ front t back, ts = front ++ t :: back → ∃ pre s,
        ((Scanner.ofText source).reached front.length).next = (.ok t, s) ∧
        source.toList = pre ++ (t.lexeme.toList ++ s.rest) ∧ t.StandsBehind pre) ∧
      (ts ++ [Token.endAt ⟨3, 1⟩]).IsChain fun t u => t.stop.NotAfter u.start := by
  intro source ts
  have hShort : source.length < 2 ^ 31 - 1 := by decide
  have hTokens : tokenize source = .ok (ts ++ [.endAt ⟨3, 1⟩]) := by cbv
  obtain ⟨us, p, hForm, _, hPlaces, _, hChain, _⟩ := tokenize_places_tokens hShort hTokens
  obtain rfl : ts = us := List.append_inj_left' hForm rfl
  exact ⟨hShort, hTokens, hPlaces, hChain⟩

end Reckoner
