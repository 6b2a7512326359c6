import Reckoner.Proofs.Scanning.Findings

/-! # Where a source may be split

Of two texts, one behind the other, the first is scanned as if nothing followed and the second as if
nothing came before, unless the joint lies inside a run of letters or of digits; there the last word of
the one and the first word of the other are a single word. In the positions of the second text only the
lines and the columns of its first line change.
-/
namespace Reckoner
set_option autoImplicit false

open Alphabet

/-- A run of letters or of digits goes on from the end of the one text into the other. -/
def RunsOn (a b : List Char) : Prop :=
  ∃ c ∈ a.getLast?, ∃ d ∈ b.head?,
    (isLetter c = true ∧ isLetter d = true) ∨ (isDigit c = true ∧ isDigit d = true)

theorem RunsOn.behind {rest b : List Char} (h : RunsOn rest b) (front : List Char) :
    RunsOn (front ++ rest) b := by
  obtain ⟨c, hc, hRun⟩ := h
  refine ⟨c, ?_, hRun⟩
  rw [List.getLast?_append, Option.mem_def.mp hc]
  rfl

theorem RunsOn.exists_chars {a b : List Char} (h : RunsOn a b) :
    ∃ c ∈ a.getLast?, ∃ d ∈ b.head?, isBlank c = false ∧ isBlank d = false ∧
      ((isDigit c = true ∧ isDigit d = true) ∨ (isLetter c = true ∧ isLetter d = true)) := by
  obtain ⟨c, hc, d, hd, ⟨hFirst, hSecond⟩ | ⟨hFirst, hSecond⟩⟩ := h
  · exact ⟨c, hc, d, hd, isBlank_eq_false_of_isLetter hFirst, isBlank_eq_false_of_isLetter hSecond,
      .inr ⟨hFirst, hSecond⟩⟩
  · exact ⟨c, hc, d, hd, isBlank_eq_false_of_isDigit hFirst, isBlank_eq_false_of_isDigit hSecond,
      .inl ⟨hFirst, hSecond⟩⟩

theorem runsOn_append_iff {rest : List Char} (hRest : rest ≠ []) (front b : List Char) :
    RunsOn (front ++ rest) b ↔ RunsOn rest b := by
  rw [RunsOn, RunsOn, List.getLast?_append_of_ne_nil front hRest]

namespace Position

/-- `IsShifted e p q`: the position `p` of a text becomes `q` when another text that ends at `e` is put
in front of it. Lines move down, columns move on the first line alone. -/
structure IsShifted (e p q : Position) : Prop where
  line_eq : q.line.toInt = p.line.toInt + (e.line.toInt - 1)
  column_eq : q.column.toInt =
    if p.line = 1 then p.column.toInt + (e.column.toInt - 1) else p.column.toInt

theorem lastLine_append_of_mem {text : List Char} (h : '\n' ∈ text) (before : List Char) :
    lastLine (before ++ text) = lastLine text := by
  induction text using List.reverseRecOn with
  | nil => cases h
  | append_singleton text c ih =>
    rw [← List.append_assoc]
    by_cases hNewline : c = '\n'
    · subst hNewline
      rw [lastLine_concat_newline, lastLine_concat_newline]
    · have hMem : '\n' ∈ text := by
        rcases List.mem_append.mp h with hFront | hLast
        · exact hFront
        · exact absurd (List.mem_singleton.mp hLast).symm hNewline
      rw [lastLine_concat hNewline, lastLine_concat hNewline, ih hMem]

theorem IsBehind.shifted {e p q : Position} {before text : List Char} (he : e.IsBehind before)
    (hp : p.IsBehind text) (hq : q.IsBehind (before ++ text)) : IsShifted e p q := by
  constructor
  · rw [hq.line_eq, hp.line_eq, he.line_eq, List.count_append]
    omega
  · by_cases hNewline : '\n' ∈ text
    · have hLine : p.line ≠ 1 := by
        intro hFirst
        have hCount : 0 < text.count '\n' := List.count_pos_iff.mpr hNewline
        have hValue := hp.line_eq
        rw [hFirst, Int32.toInt_one] at hValue
        omega
      rw [if_neg hLine, hq.column_eq, hp.column_eq, lastLine_append_of_mem hNewline]
    · obtain ⟨hLine, hColumn⟩ := hp.of_newline_notMem hNewline
      obtain ⟨_, hMoved⟩ := he.of_append hq hNewline
      rw [if_pos hLine]
      omega

theorem isShifted_after {before text : List Char} (h : (before ++ text).length < 2 ^ 31 - 1) :
    IsShifted (first.after before) (first.after text) ((first.after before).after text) := by
  have hText : text.length < 2 ^ 31 - 1 := by
    rw [List.length_append] at h
    omega
  have hBefore : (first.after before).IsBehind before :=
    isBehind_after_of_prefix (List.prefix_append before text) h
  rw [← after_append]
  exact hBefore.shifted (isBehind_after hText) (isBehind_after h)

end Position

namespace Token

/-- The word of the token stands behind `pre` in a text that begins at `p`. -/
structure StandsAt (p : Position) (pre : List Char) (t : Token) : Prop where
  start_eq : t.start = p.after pre
  stop_eq : t.stop = p.after (pre ++ t.lexeme.toList)

/-- Both tokens have the same word at the same place of a text, which begins at `p` for the one and at
`p'` for the other. -/
structure SamePlace (text : List Char) (p p' : Position) (t u : Token) : Prop where
  word_eq : u.word = t.word
  place : ∃ pre, pre ++ t.lexeme.toList <+: text ∧ t.StandsAt p pre ∧ u.StandsAt p' pre

/-- The same word as that of `t`, shifted by a text that ends at `e`. -/
structure IsShifted (e : Position) (t u : Token) : Prop where
  word_eq : u.word = t.word
  start_shifted : Position.IsShifted e t.start u.start
  stop_shifted : Position.IsShifted e t.stop u.stop

variable {text pre : List Char} {p p' : Position} {t u : Token}

theorem StandsAt.behind {front : List Char} (h : t.StandsAt (p.after front) pre) :
    t.StandsAt p (front ++ pre) := by
  constructor
  · rw [h.start_eq, Position.after_append]
  · rw [h.stop_eq, List.append_assoc, Position.after_append p front]

theorem SamePlace.behind {front : List Char}
    (h : SamePlace text (p.after front) (p'.after front) t u) : SamePlace (front ++ text) p p' t u := by
  obtain ⟨hWord, pre, hPrefix, hFirst, hSecond⟩ := h
  refine ⟨hWord, front ++ pre, ?_, hFirst.behind, hSecond.behind⟩
  rw [List.append_assoc]
  exact (List.prefix_append_right_inj front).mpr hPrefix

theorem samePlace_head (kind : Token.Kind) (word rest : List Char) (p p' : Position) :
    SamePlace (word ++ rest) p p' ⟨kind, String.ofList word, p, p.after word⟩
      ⟨kind, String.ofList word, p', p'.after word⟩ := by
  refine ⟨rfl, [], ?_, ⟨rfl, ?_⟩, ⟨rfl, ?_⟩⟩
  · simp
  all_goals rw [List.nil_append, String.toList_ofList]

theorem SamePlace.isShifted {before : List Char}
    (h : SamePlace text .first (Position.first.after before) t u)
    (hShort : (before ++ text).length < 2 ^ 31 - 1) : IsShifted (Position.first.after before) t u := by
  obtain ⟨hWord, pre, hPrefix, ⟨hStart, hStop⟩, hStart', hStop'⟩ := h
  have hLexeme : u.lexeme.toList = t.lexeme.toList := congrArg Word.text hWord
  have hPart : ∀ part, part <+: text → Position.IsShifted (Position.first.after before)
      (Position.first.after part) ((Position.first.after before).after part) := by
    intro part hPart
    apply Position.isShifted_after
    have hLength := hPart.length_le
    rw [List.length_append] at hShort ⊢
    omega
  refine ⟨hWord, ?_, ?_⟩
  · rw [hStart, hStart']
    exact hPart pre ((List.prefix_append pre _).trans hPrefix)
  · rw [hStop, hStop', hLexeme]
    exact hPart _ hPrefix

/-- A fitting word ends where a text begins into which it does not run on. -/
theorem Kind.Fits.stops_append {kind : Token.Kind} {word rest b : List Char} (hFits : kind.Fits word)
    (hStops : kind.Stops rest) (hApart : ¬RunsOn (word ++ rest) b) : kind.Stops (rest ++ b) := by
  cases rest with
  | cons c rest => exact hStops
  | nil =>
    intro d hd
    obtain ⟨c, tail, hWord, _⟩ := hFits.exists_head
    have hNonempty : word ≠ [] := by simp [hWord]
    refine Bool.eq_false_iff.mpr fun hGrows => hApart ?_
    refine ⟨word.getLast hNonempty, ?_, d, hd, ?_⟩
    · rw [List.append_nil]
      exact List.getLast?_eq_some_getLast hNonempty
    · exact ((hFits.grows_iff (List.getLast_mem hNonempty) d).mp hGrows).symm

end Token

namespace Scanner

/-- What is found in a text is also found in front of a text into which it does not run on. -/
theorem Finds.extend {a b : List Char} {p q : Position} {found : List (Except ScanError Token)}
    (h : Finds ⟨a, p⟩ found ⟨[], q⟩) (hApart : ¬RunsOn a b) : Finds ⟨a ++ b, p⟩ found ⟨b, q⟩ := by
  generalize hStart : (⟨a, p⟩ : Scanner) = s at h
  generalize hEnd : (⟨[], q⟩ : Scanner) = s' at h
  induction h generalizing a p with
  | done s =>
    subst hEnd
    cases hStart
    exact .done _
  | blank hBlank _ ih =>
    cases hStart
    exact .blank hBlank (ih (fun hRun => hApart (hRun.behind [_])) rfl hEnd)
  | @word kind word rest _ _ _ hFits hStops _ ih =>
    cases hStart
    rw [List.append_assoc]
    refine .word hFits (hFits.stops_append hStops hApart) ?_
    exact ih (fun hRun => hApart (hRun.behind word)) rfl hEnd
  | illegal hIllegal _ ih =>
    cases hStart
    exact .illegal hIllegal (ih (fun hRun => hApart (hRun.behind [_])) rfl hEnd)

/-- Wherever a text begins, the same words are found at the same places of it. -/
theorem Finds.exists_samePlace {text : List Char} {p q : Position} {ts : List Token}
    (h : Finds ⟨text, p⟩ (ts.map .ok) ⟨[], q⟩) (p' : Position) :
    ∃ us : List Token, Finds ⟨text, p'⟩ (us.map .ok) ⟨[], p'.after text⟩ ∧
      List.Forall₂ (Token.SamePlace text p p') ts us := by
  generalize hStart : (⟨text, p⟩ : Scanner) = s at h
  generalize hFound : ts.map Except.ok = found at h
  generalize hEnd : (⟨[], q⟩ : Scanner) = s' at h
  induction h generalizing text p p' ts with
  | done s =>
    subst hEnd
    cases hStart
    obtain rfl := List.map_eq_nil_iff.mp hFound
    exact ⟨[], .done _, .nil⟩
  | @blank c rest p _ _ hBlank _ ih =>
    cases hStart
    obtain ⟨us, hFinds, hPlaces⟩ := ih (p'.advance c) rfl hFound hEnd
    refine ⟨us, .blank hBlank hFinds, hPlaces.imp ?_⟩
    intro t u (hPlace : Token.SamePlace rest (p.after [c]) (p'.after [c]) t u)
    exact hPlace.behind
  | @word kind word rest p _ _ hFits hStops _ ih =>
    cases hStart
    obtain ⟨t, ts, rfl, hToken, hRest⟩ := List.map_eq_cons_iff.mp hFound
    cases hToken
    obtain ⟨us, hFinds, hPlaces⟩ := ih (p'.after word) rfl hRest hEnd
    refine ⟨⟨kind, String.ofList word, p', p'.after word⟩ :: us, ?_, .cons ?_ ?_⟩
    · rw [Position.after_append]
      exact .word hFits hStops hFinds
    · exact Token.samePlace_head kind word rest p p'
    · exact hPlaces.imp fun _ _ hPlace => hPlace.behind
  | illegal _ _ _ =>
    obtain ⟨t, ts, rfl, hToken, _⟩ := List.map_eq_cons_iff.mp hFound
    cases hToken

end Scanner

/-- Two runs of letters, or two of digits, make one word, which ends where the second one does. -/
theorem Word.exists_joined {u v : Word} (hv : v.Fits) (h : u.Joins v) :
    ∃ w : Word, w.Fits ∧ w.text = u.text ++ v.text ∧ w.kind.grows = v.kind.grows := by
  obtain ⟨d, tail, hText, _⟩ := Token.Kind.Fits.exists_head hv
  have hNonempty : u.text ++ v.text ≠ [] := by simp [hText]
  obtain ⟨kind, hFits⟩ : ∃ kind : Token.Kind, kind.Fits (u.text ++ v.text) := by
    rcases h with hDigits | hLetters
    · exact ⟨.number, hNonempty, hDigits⟩
    · exact ⟨.ofWord _, (Token.Kind.fits_ofWord hNonempty hLetters).1⟩
  have hd : d ∈ v.text := by simp [hText]
  refine ⟨⟨kind, u.text ++ v.text⟩, hFits, rfl, funext fun c => Bool.eq_iff_iff.mpr ?_⟩
  rw [hFits.grows_iff (List.mem_append_right u.text hd), Token.Kind.Fits.grows_iff hv hd]

theorem HasWords.exists_first {b : List Char} {v : List Word} (h : HasWords b v) {d : Char}
    (hd : d ∈ b.head?) (hBlank : isBlank d = false) :
    ∃ w others rest, v = w :: others ∧ b = w.text ++ rest ∧ d ∈ w.text ∧ w.Fits ∧ w.kind.Stops rest ∧
      HasWords rest others := by
  obtain ⟨lead, parts, hCut, rfl⟩ := h
  have hLead : lead = [] := by
    cases lead with
    | nil => rfl
    | cons c lead =>
      rw [hCut.source_eq] at hd
      obtain rfl : c = d := Option.some.inj hd
      rw [hCut.lead_blank c List.mem_cons_self] at hBlank
      cases hBlank
  subst hLead
  cases parts with
  | nil =>
    obtain ⟨rfl, _⟩ := cut_nil_iff.mp hCut
    cases hd
  | cons part parts =>
    obtain ⟨_, hFits, rest, rfl, hStops, hRest⟩ := cut_cons_iff.mp hCut
    obtain ⟨c, tail, hText, _⟩ := Token.Kind.Fits.exists_head hFits
    rw [List.nil_append, hText, List.cons_append] at hd
    obtain rfl : c = d := Option.some.inj hd
    exact ⟨part.1, _, rest, rfl, rfl, by simp [hText], hFits, hStops, part.2, parts, hRest, rfl⟩

theorem HasWords.exists_fused_word {w : Word} (hFits : w.Fits) {b : List Char} {v : List Word}
    (hb : HasWords b v) (h : RunsOn w.text b) :
    ∃ (first : Word) (back : List Word) (fused : Word), v = first :: back ∧
      fused.text = w.text ++ first.text ∧ HasWords (w.text ++ b) (fused :: back) := by
  obtain ⟨c, hc, d, hd, _, hBlank, hClass⟩ := h.exists_chars
  obtain ⟨first, back, rest, rfl, rfl, hMem, hFirst, hStops, hRest⟩ := hb.exists_first hd hBlank
  have hJoins : w.Joins first := (Word.joins_iff hFits hFirst (List.mem_of_getLast? hc) hMem).mpr hClass
  obtain ⟨fused, hFused, hText, hGrows⟩ := Word.exists_joined hFirst hJoins
  refine ⟨first, back, fused, rfl, hText, ?_⟩
  have hEnds : fused.kind.Stops rest := by
    rw [Token.Kind.Stops, hGrows]
    exact hStops
  rw [← List.append_assoc, ← hText]
  exact hRest.cons_word hFused hEnds

/-- Where a run goes on from one text into the other, the last word of the one and the first word of the
other are one word of the whole. -/
theorem HasWords.exists_fused {a b : List Char} {u v : List Word} (ha : HasWords a u)
    (hb : HasWords b v) (h : RunsOn a b) :
    ∃ (front : List Word) (last first : Word) (back : List Word) (fused : Word),
      u = front ++ [last] ∧ v = first :: back ∧ fused.text = last.text ++ first.text ∧
        HasWords (a ++ b) (front ++ fused :: back) := by
  obtain ⟨lead, parts, hCut, rfl⟩ := ha
  -- the joint is behind the last word of the first text, so the induction is on its words
  induction parts generalizing a lead with
  | nil =>
    obtain ⟨rfl, hLead⟩ := cut_nil_iff.mp hCut
    obtain ⟨c, hc, _, _, hBlank, _⟩ := h.exists_chars
    rw [hLead c (List.mem_of_getLast? hc)] at hBlank
    cases hBlank
  | cons part parts ih =>
    obtain ⟨hLead, hFits, rest, rfl, hStops, hRest⟩ := cut_cons_iff.mp hCut
    obtain ⟨c, tail, hText, _⟩ := Token.Kind.Fits.exists_head hFits
    rw [runsOn_append_iff (by simp [hText])] at h
    by_cases hEmpty : rest = []
    · subst hEmpty
      rw [List.append_nil] at h
      have hOnly : parts.map Prod.fst = [] :=
        HasWords.unique ⟨part.2, parts, hRest, rfl⟩ ⟨[], [], cut_nil_iff.mpr ⟨rfl, by simp⟩, rfl⟩
      obtain ⟨first, back, fused, rfl, hFused, hWords⟩ := exists_fused_word hFits hb h
      refine ⟨[], part.1, first, back, fused, by simp [hOnly], rfl, hFused, ?_⟩
      rw [List.append_nil, List.append_assoc]
      exact hWords.behind_blanks hLead
    · rw [runsOn_append_iff hEmpty] at h
      obtain ⟨front, last, first, back, fused, hFront, rfl, hFused, lead', parts', hCut', hWords⟩ :=
        ih h _ hRest
      refine ⟨part.1 :: front, last, first, back, fused, by simp [hFront], rfl, hFused, lead,
        (part.1, lead') :: parts', ?_, by simp [hWords]⟩
      have hEnds : part.1.kind.Stops (rest ++ b) := by
        obtain ⟨d, others, rfl⟩ := List.exists_cons_of_ne_nil hEmpty
        exact hStops
      refine cut_cons_iff.mpr ⟨hLead, hFits, rest ++ b, ?_, hEnds, hCut'⟩
      simp only [List.append_assoc]

theorem not_runsOn_of_hasWords {a b : List Char} {u v : List Word} (ha : HasWords a u)
    (hb : HasWords b v) (h : HasWords (a ++ b) (u ++ v)) : ¬RunsOn a b := by
  intro hRun
  obtain ⟨front, last, first, back, fused, rfl, rfl, _, hFused⟩ := ha.exists_fused hb hRun
  have hLength := congrArg List.length (h.unique hFused)
  simp only [List.length_append, List.length_cons, List.length_nil] at hLength
  omega

theorem Scanner.Finds.hasWords {text : List Char} {p q : Position} {ts : List Token}
    (h : Finds ⟨text, p⟩ (ts.map .ok) ⟨[], q⟩) : HasWords text (ts.map Token.word) := by
  obtain ⟨read, hRead, _, hWords⟩ := h.exists_read
  obtain rfl : text = read := by simpa using hRead
  exact hWords

theorem exists_tokenize_append {a b : String} {ts us : List Token} {p q : Position}
    (ha : Scanner.Finds ⟨a.toList, .first⟩ (ts.map .ok) ⟨[], p⟩)
    (hb : Scanner.Finds ⟨b.toList, .first⟩ (us.map .ok) ⟨[], q⟩)
    (hApart : ¬RunsOn a.toList b.toList) :
    ∃ vs, tokenize (a ++ b) = .ok (ts ++ (vs ++ [.endAt (p.after b.toList)])) ∧
      List.Forall₂ (Token.SamePlace b.toList .first p) us vs := by
  obtain ⟨vs, hFinds, hPlaces⟩ := hb.exists_samePlace p
  have hBoth := (ha.extend hApart).append hFinds
  rw [← List.map_append, ← String.toList_append] at hBoth
  refine ⟨vs, ?_, hPlaces⟩
  rw [← List.append_assoc]
  exact tokenize_of_passes hBoth.passes

theorem map_word_eq_of_samePlace {text : List Char} {p p' : Position} {ts us : List Token}
    (h : List.Forall₂ (Token.SamePlace text p p') ts us) : us.map Token.word = ts.map Token.word := by
  induction h with
  | nil => rfl
  | cons hPlace _ ih => rw [List.map_cons, List.map_cons, hPlace.word_eq, ih]

/-- The tokens of two sources, one behind the other, are those of the first and then those of the second
if and only if no run goes on across the joint, and then the tokens of the second are shifted by the
position that the first ends at. -/
theorem tokenize_append_iff_apart {a b : String} {as bs : List Token} (ha : tokenize a = .ok as)
    (hb : tokenize b = .ok bs) :
    ∃ ts e cs, as = ts ++ [.endAt e] ∧ tokenize (a ++ b) = .ok cs ∧
      (cs.map Token.word = ts.map Token.word ++ bs.map Token.word ↔ ¬RunsOn a.toList b.toList) ∧
      (¬RunsOn a.toList b.toList → (a ++ b).length < 2 ^ 31 - 1 →
        e.IsBehind a.toList ∧ ∃ us, cs = ts ++ us ∧ List.Forall₂ (Token.IsShifted e) bs us) := by
  have hLegal : ∀ c ∈ (a ++ b).toList, isLegal c = true := by
    rw [String.toList_append]
    exact List.forall_mem_append.mpr ⟨forall_isLegal_of_tokenize ha, forall_isLegal_of_tokenize hb⟩
  obtain ⟨ts, hTokens, hFinds⟩ := exists_tokenize_of_legal (forall_isLegal_of_tokenize ha)
  obtain ⟨us, hTokens', hFinds'⟩ := exists_tokenize_of_legal (forall_isLegal_of_tokenize hb)
  obtain ⟨cs, hWhole, hScan⟩ := exists_tokenize_of_legal hLegal
  obtain rfl := Except.ok.inj (ha.symm.trans hTokens)
  obtain rfl := Except.ok.inj (hb.symm.trans hTokens')
  refine ⟨ts, _, _, rfl, hWhole, ⟨?_, ?_⟩, ?_⟩
  · intro hWords
    apply not_runsOn_of_hasWords hFinds.hasWords hFinds'.hasWords
    simp only [List.map_append, ← List.append_assoc] at hWords
    have hSame := List.append_inj_left' hWords rfl
    rw [← hSame, ← String.toList_append]
    exact hScan.hasWords
  · intro hApart
    obtain ⟨vs, hSplit, hPlaces⟩ := exists_tokenize_append hFinds hFinds' hApart
    rw [Except.ok.inj (hWhole.symm.trans hSplit)]
    simp only [List.map_append, map_word_eq_of_samePlace hPlaces]
    rfl
  · intro hApart hShort
    obtain ⟨vs, hSplit, hPlaces⟩ := exists_tokenize_append hFinds hFinds' hApart
    rw [← String.length_toList, String.toList_append] at hShort
    have hBehind : (Position.first.after a.toList).IsBehind a.toList :=
      Position.isBehind_after_of_prefix (List.prefix_append _ _) hShort
    have hEnd := Position.isShifted_after hShort
    refine ⟨hBehind, _, Except.ok.inj (hWhole.symm.trans hSplit), ?_⟩
    exact List.rel_append (hPlaces.imp fun _ _ hPlace => hPlace.isShifted hShort)
      (.cons ⟨rfl, hEnd, hEnd⟩ .nil)

/-- A number may touch the word behind it, and only the first line of that word's text moves to the
right; a reserved word is lost where letters follow it. -/
theorem tokenize_append_iff_apart_reserved :
    let a := "x\n 12"
    let b := "nu 3\nvar"
    let ts : List Token := [⟨.identifier, "x", ⟨1, 1⟩, ⟨1, 2⟩⟩, ⟨.number, "12", ⟨2, 2⟩, ⟨2, 4⟩⟩]
    let bs : List Token := [⟨.identifier, "nu", ⟨1, 1⟩, ⟨1, 3⟩⟩, ⟨.number, "3", ⟨1, 4⟩, ⟨1, 5⟩⟩,
      ⟨.var, "var", ⟨2, 1⟩, ⟨2, 4⟩⟩]
    tokenize a = .ok (ts ++ [.endAt ⟨2, 4⟩]) ∧ tokenize b = .ok (bs ++ [.endAt ⟨2, 4⟩]) ∧
      (∃ us, tokenize (a ++ b) = .ok (ts ++ us) ∧
        List.Forall₂ (Token.IsShifted ⟨2, 4⟩) (bs ++ [.endAt ⟨2, 4⟩]) us) ∧
      ∃ cs, tokenize (b ++ "s") = .ok cs ∧ cs.map Token.word ≠ bs.map Token.word ++
        [⟨.identifier, ['s']⟩, (Token.endAt ⟨1, 2⟩).word] := by
  intro a b ts bs
  have ha : tokenize a = .ok (ts ++ [.endAt ⟨2, 4⟩]) := by cbv
  have hb : tokenize b = .ok (bs ++ [.endAt ⟨2, 4⟩]) := by cbv
  have hs : tokenize "s" = .ok [⟨.identifier, "s", ⟨1, 1⟩, ⟨1, 2⟩⟩, .endAt ⟨1, 2⟩] := by cbv
  have hLast : a.toList.getLast? = some '2' := by decide
  have hHead : b.toList.head? = some 'n' := by decide
  have hApart : ¬RunsOn a.toList b.toList := by
    rintro ⟨c, hc, d, hd, hClass⟩
    obtain rfl := Option.some.inj (hLast.symm.trans hc)
    obtain rfl := Option.some.inj (hHead.symm.trans hd)
    revert hClass
    decide
  have hRun : RunsOn b.toList "s".toList := ⟨'r', by decide, 's', by decide, .inl ⟨rfl, rfl⟩⟩
  refine ⟨ha, hb, ?_, ?_⟩
  · obtain ⟨us, e, cs, hForm, hTokens, _, hShifted⟩ := tokenize_append_iff_apart ha hb
    obtain ⟨rfl, hEnd⟩ := List.append_inj' hForm rfl
    cases hEnd
    obtain ⟨_, vs, rfl, hAll⟩ := hShifted hApart (by decide)
    exact ⟨vs, hTokens, hAll⟩
  · obtain ⟨us, e, cs, hForm, hTokens, hIff, _⟩ := tokenize_append_iff_apart hb hs
    obtain ⟨rfl, _⟩ := List.append_inj' hForm rfl
    exact ⟨cs, hTokens, fun hWords => hIff.mp hWords hRun⟩

end Reckoner
