import Reckoner.Evaluation
import Reckoner.Proofs.Parsing.Recognition
import Reckoner.Proofs.Scanning.Cut

/-! # Sources one behind the other

A source is parsed as a program if and only if its words spell that program; where the words stand
plays no part. Two sources with blanks between them have the words of the one and then those of the
other, so they are parsed as the statements of both, and evaluated one after the other.
-/
namespace Reckoner
set_option autoImplicit false

open Alphabet Grammar

theorem Token.word_eq_iff {t u : Token} :
    t.word = u.word ↔ t.kind = u.kind ∧ t.lexeme = u.lexeme := by
  simp [Token.word, String.toList_inj]

theorem Token.operator?_eq_of_word {t u : Token} (h : t.word = u.word) :
    t.operator? = u.operator? := by
  obtain ⟨hKind, hLexeme⟩ := Token.word_eq_iff.mp h
  rw [Token.operator?, Token.operator?, hKind, hLexeme]

theorem exists_split_of_words {us ts rest : List Token} {t : Token}
    (h : us.map Token.word = (ts ++ t :: rest).map Token.word) :
    ∃ first u second, us = first ++ u :: second ∧ first.map Token.word = ts.map Token.word ∧
      u.word = t.word ∧ second.map Token.word = rest.map Token.word := by
  rw [List.map_append, List.map_cons] at h
  obtain ⟨first, others, rfl, hFirst, hOthers⟩ := List.map_eq_append_iff.mp h
  obtain ⟨u, second, rfl, hWord, hSecond⟩ := List.map_eq_cons_iff.mp hOthers
  exact ⟨first, u, second, rfl, hFirst, hWord, hSecond⟩

/-- A phrase is spelled by any tokens with the same words. -/
theorem Spells.of_words {tier : Tier} {ts us : List Token} {e : Expr} (h : Spells tier ts e)
    (hWords : us.map Token.word = ts.map Token.word) : Spells tier us e := by
  induction h generalizing us with
  | @name t hKind =>
    obtain ⟨u, rfl, hWord⟩ := List.map_eq_singleton_iff.mp hWords
    obtain ⟨hSame, hLexeme⟩ := Token.word_eq_iff.mp hWord
    rw [← hLexeme]
    exact .name (hSame.trans hKind)
  | @null t hKind =>
    obtain ⟨u, rfl, hWord⟩ := List.map_eq_singleton_iff.mp hWords
    exact .null ((Token.word_eq_iff.mp hWord).1.trans hKind)
  | @number t x hKind hValue =>
    obtain ⟨u, rfl, hWord⟩ := List.map_eq_singleton_iff.mp hWords
    obtain ⟨hSame, hLexeme⟩ := Token.word_eq_iff.mp hWord
    rw [← hLexeme] at hValue
    exact .number (hSame.trans hKind) hValue
  | @group left right ts e hLeft hRight _ ih =>
    obtain ⟨front, v, behind, rfl, hFront, hClose, hBehind⟩ := exists_split_of_words hWords
    obtain ⟨u, inner, rfl, hOpen, hInner⟩ := List.map_eq_cons_iff.mp hFront
    obtain rfl := List.map_eq_nil_iff.mp hBehind
    exact .group ((Token.word_eq_iff.mp hOpen).1.trans hLeft)
      ((Token.word_eq_iff.mp hClose).1.trans hRight) (ih hInner)
  | single _ ih => exact .single (ih hWords)
  | alone _ ih => exact .alone (ih hWords)
  | @times ts rest t op a b _ hOp hBinds _ ihLeft ihRight =>
    obtain ⟨first, u, second, rfl, hFirst, hMark, hSecond⟩ := exists_split_of_words hWords
    exact .times (ihLeft hFirst) ((Token.operator?_eq_of_word hMark).trans hOp) hBinds
      (ihRight hSecond)
  | @plus ts rest t op a b _ hOp hBinds _ ihLeft ihRight =>
    obtain ⟨first, u, second, rfl, hFirst, hMark, hSecond⟩ := exists_split_of_words hWords
    exact .plus (ihLeft hFirst) ((Token.operator?_eq_of_word hMark).trans hOp) hBinds
      (ihRight hSecond)

theorem SpellsAll.of_words {ts us : List Token} {es : List Expr} (h : SpellsAll ts es)
    (hWords : us.map Token.word = ts.map Token.word) : SpellsAll us es := by
  induction h generalizing us with
  | nil =>
    obtain rfl := List.map_eq_nil_iff.mp hWords
    exact .nil
  | cons hHead _ ih =>
    rw [List.map_append] at hWords
    obtain ⟨first, rest, rfl, hFirst, hRest⟩ := List.map_eq_append_iff.mp hWords
    exact .cons (Spells.of_words hHead hFirst) (ih hRest)

theorem parse_iff_hasWords {source : String} {p : Program} :
    Program.parse source = .ok p ↔
      ∃ ts, HasWords source.toList (ts.map Token.word) ∧ SpellsAll ts p.body := by
  constructor
  · intro h
    obtain ⟨tokens, hTokens, hAll⟩ := Parser.exists_spellsAll_of_parse h
    obtain ⟨ts, q, rfl, hWords⟩ := exists_hasWords_of_tokenize hTokens
    have hFilter : (ts ++ [Token.endAt q]).filter (fun t => !t.isEnd) = ts := by
      rw [List.filter_append, List.filter_eq_self.mpr]
      · simp
      · intro t ht
        simp [Token.isEnd_of_fits (hWords.fits _ (List.mem_map_of_mem ht))]
    rw [hFilter] at hAll
    exact ⟨ts, hWords, hAll⟩
  · rintro ⟨ts, hWords, hAll⟩
    obtain ⟨us, q, hTokens, hSame⟩ := exists_tokenize_of_hasWords hWords
    rw [Program.parse, hTokens]
    exact (Parser.ofTokens_of_spellsAll (SpellsAll.of_words hAll hSame)).2 _ rfl

/-- A text whose beginning goes on no word may stand behind any other. -/
theorem HasWords.append_of_stops {a b : List Char} {u v : List Word} (ha : HasWords a u)
    (hb : HasWords b v) (hStops : ∀ kind : Token.Kind, kind.Stops b) : HasWords (a ++ b) (u ++ v) := by
  obtain ⟨lead, parts, hCut, rfl⟩ := ha
  -- the second text comes behind the last word of the first, so the induction is on its words
  induction parts generalizing a lead with
  | nil =>
    obtain ⟨rfl, hLead⟩ := cut_nil_iff.mp hCut
    exact hb.behind_blanks hLead
  | cons part parts ih =>
    obtain ⟨hLead, hFits, rest, rfl, hStops', hRest⟩ := cut_cons_iff.mp hCut
    have hWord := (ih _ hRest).cons_word hFits (hStops'.behind (hStops part.1.kind))
    simpa using hWord.behind_blanks hLead

/-- Blanks between two texts keep their words apart. -/
theorem HasWords.append {a b gap : List Char} {u v : List Word} (ha : HasWords a u)
    (hb : HasWords b v) (hGap : gap ≠ []) (hBlank : ∀ c ∈ gap, isBlank c = true) :
    HasWords (a ++ (gap ++ b)) (u ++ v) := by
  refine ha.append_of_stops (hb.behind_blanks hBlank) ?_
  obtain ⟨c, gap, rfl⟩ := List.exists_cons_of_ne_nil hGap
  intro kind d hd
  obtain rfl : c = d := Option.some.inj hd
  exact Token.Kind.grows_eq_false_of_isBlank (hBlank c List.mem_cons_self) kind

theorem Expr.evalAll_append (look : Lookup) (a b : List Expr) (last : Value) :
    evalAll look (a ++ b) last = (evalAll look a last).bind (evalAll look b) := by
  induction a generalizing last with
  | nil =>
    rw [evalAll]
    rfl
  | cons e a ih =>
    rw [List.cons_append, evalAll_cons, evalAll_cons]
    cases e.eval look with
    | error err => rfl
    | ok value => exact ih value

/-- A statement does not see the value of the one before it. -/
theorem Expr.evalAll_of_ne_nil {body : List Expr} (h : body ≠ []) (look : Lookup)
    (last last' : Value) : evalAll look body last = evalAll look body last' := by
  cases body with
  | nil => exact absurd rfl h
  | cons e body => rw [evalAll_cons, evalAll_cons]

/-- Two sources with blanks between them are parsed as the statements of both. The value is that of the
second, unless the first fails or the second has no statements. -/
theorem parse_concat {a b gap : String} {p q : Program} (hp : Program.parse a = .ok p)
    (hq : Program.parse b = .ok q) (hGap : gap ≠ "") (hBlank : ∀ c ∈ gap.toList, isBlank c = true) :
    Program.parse (a ++ gap ++ b) = .ok ⟨p.body ++ q.body⟩ ∧
      ∀ (store : Store) (f : Nat),
        let value (r : Program) := (r.toExpr.evaluate (store.get f)).result
        (∀ e, value p = .error e → value ⟨p.body ++ q.body⟩ = .error e) ∧
        (∀ v, value p = .ok v → q.body = [] → value ⟨p.body ++ q.body⟩ = .ok v) ∧
        ∀ v, value p = .ok v → q.body ≠ [] → value ⟨p.body ++ q.body⟩ = value q := by
  constructor
  · obtain ⟨ts, hWords, hAll⟩ := parse_iff_hasWords.mp hp
    obtain ⟨us, hWords', hAll'⟩ := parse_iff_hasWords.mp hq
    have hNonempty : gap.toList ≠ [] := fun hNil => hGap (String.toList_eq_nil_iff.mp hNil)
    refine parse_iff_hasWords.mpr ⟨ts ++ us, ?_, Parser.spellsAll_append hAll hAll'⟩
    rw [List.map_append, String.toList_append, String.toList_append, List.append_assoc]
    exact hWords.append hWords' hNonempty hBlank
  · intro store f value
    have hValue : ∀ body, value ⟨body⟩ = Expr.evalAll (store.get f) body .null := by
      intro body
      simp only [value, Program.toExpr, Expr.evaluate_eq, Expr.eval]
    have hBoth : value ⟨p.body ++ q.body⟩ = (value p).bind (Expr.evalAll (store.get f) q.body) := by
      rw [hValue, Expr.evalAll_append, ← hValue]
    refine ⟨?_, ?_, ?_⟩
    · intro e hError
      rw [hBoth, hError]
      rfl
    · intro v hOk hEmpty
      rw [hBoth, hOk, hEmpty]
      simp [Except.bind, Expr.evalAll]
    · intro v hOk hSome
      rw [hBoth, hOk]
      exact (Expr.evalAll_of_ne_nil hSome _ v .null).trans (hValue q.body).symm

/-- A parenthesis behind a name begins a statement of its own. -/
theorem parse_concat_parenthesis :
    Program.parse ("x" ++ "\n\t" ++ "(null)") = .ok ⟨[.name "x", .null]⟩ ∧
      ((Expr.program [.name "x", .null]).evaluate (Store.empty.get 0)).result =
        .error (.scope (.undefined "x")) := by
  have hp : Program.parse "x" = .ok ⟨[.name "x"]⟩ := by cbv
  have hq : Program.parse "(null)" = .ok ⟨[.null]⟩ := by cbv
  have hBlank : ∀ c ∈ "\n\t".toList, isBlank c = true := List.all_eq_true.mp rfl
  obtain ⟨hParse, hValue⟩ := parse_concat hp hq (by decide) hBlank
  exact ⟨hParse, (hValue Store.empty 0).1 _ (by cbv)⟩

end Reckoner
