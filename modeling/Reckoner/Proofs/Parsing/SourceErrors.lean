import Reckoner.Proofs.Number.WholeNumber
import Reckoner.Proofs.Parsing.ViablePrefix
import Reckoner.Proofs.Scanning.Cut

/-! # Errors of a source

The tokens of a source are more regular than tokens in general: a number is a run of digits, and nothing
follows the closing token. Two of the parser's complaints therefore never reach the writer of a source.
What is left, besides an illegal character, is a token that does not fit and a parenthesis that is not
closed, and both point at a token of the source.
-/
namespace Reckoner
set_option autoImplicit false

theorem Token.exists_read? {t : Token} (hFits : t.word.Fits) (hKind : t.kind = .number) :
    ∃ x, Number.read? t.lexeme = some x := by
  have hDigits : Token.Kind.number.Fits t.lexeme.toList := by
    rw [← hKind]
    exact hFits
  have hRead := Number.read?_digits hDigits.1 hDigits.2
  rw [String.ofList_toList] at hRead
  exact ⟨_, hRead⟩

namespace Parser

theorem Read.exists_end {ts : List Token} {s : State} (h : Read ts s) (hClosed : s.place = .closed) :
    ∃ t ∈ ts, t.isEnd = true := by
  cases h with
  | between _ | before _ _ _ | behind _ _ _ _ => cases hClosed
  | @closed ts done t _ hEnd => exact ⟨t, by simp, hEnd⟩

/-- The parser is never asked to go on behind the closing token, if that token comes last. -/
theorem State.place_ne_closed {ts front rest : List Token} {last t : Token} {s : State}
    (hEnds : ∀ u ∈ ts, u.isEnd = false) (hSplit : ts ++ [last] = front ++ t :: rest)
    (h : State.run front {} = .ok s) : s.place ≠ .closed := by
  intro hClosed
  obtain ⟨u, hMem, hEnd⟩ := (read_of_run h).exists_end hClosed
  have hFront : ts = front ++ (t :: rest).dropLast := by
    rw [← List.dropLast_append_of_ne_nil (List.cons_ne_nil t rest), ← hSplit, List.dropLast_concat]
  have hBefore := hEnds u (by simp [hFront, hMem])
  rw [hEnd] at hBefore
  cases hBefore

end Parser

theorem exists_token_of_parse_error {source : String} {tokens : List Token} {e : ParseError}
    (hTokens : tokenize source = .ok tokens) (h : Program.parse source = .error e) :
    ∃ t ∈ tokens, e = .unexpected t ∨ e = .expected .closeParen t := by
  have hFits := tokenize_fits hTokens
  have hParse : Program.ofTokens tokens = .error e := by
    rwa [Program.parse, hTokens] at h
  obtain ⟨ts, p, rfl, hWords⟩ := exists_hasWords_of_tokenize hTokens
  have hRun := Parser.map_eq_error hParse
  rw [Parser.terminated_of_end ts (Token.isEnd_endAt p)] at hRun
  obtain ⟨front, t, rest, s, hSplit, hFront, hStep⟩ := Parser.State.exists_step_error hRun
  have hMem : t ∈ ts ++ [Token.endAt p] := by simp [hSplit]
  rcases Parser.State.step_error_cases hStep with
    (rfl | ⟨rfl, hKind, hRead⟩) | rfl | ⟨rfl, hClosed⟩
  · exact ⟨t, hMem, .inl rfl⟩
  · have hEnd : t.isEnd = false := by simp [Token.isEnd, hKind]
    obtain ⟨x, hValue⟩ := Token.exists_read? (hFits t hMem hEnd) hKind
    rw [hRead] at hValue
    cases hValue
  · exact ⟨t, hMem, .inr rfl⟩
  · have hEnds : ∀ u ∈ ts, u.isEnd = false := by
      intro u hu
      exact Token.isEnd_of_fits (hWords.fits _ (List.mem_map_of_mem hu))
    exact absurd hClosed (Parser.State.place_ne_closed hEnds hSplit hFront)

theorem parse_error_cases {source : String} {e : ParseError} (h : Program.parse source = .error e) :
    (∃ e', tokenize source = .error e' ∧ e = .scan e') ∨ ∃ tokens, tokenize source = .ok tokens ∧
      ∃ t ∈ tokens, e = .unexpected t ∨ e = .expected .closeParen t := by
  cases hTokens : tokenize source with
  | error e' =>
    rw [Program.parse, hTokens] at h
    cases h
    exact .inl ⟨e', rfl, rfl⟩
  | ok tokens => exact .inr ⟨tokens, rfl, exists_token_of_parse_error hTokens h⟩

/-- Parsing a source fails as scanning it does, whatever stands in front of the illegal character.
Otherwise it fails at a token of the source that does not fit or stands where a parenthesis has to be
closed, and for no other reason. -/
theorem parse_error_of_source (source : String) :
    (∀ e, tokenize source = .error e ↔ Program.parse source = .error (.scan e)) ∧
      (∀ tokens e, tokenize source = .ok tokens → Program.parse source = .error e →
        ∃ t ∈ tokens, e = .unexpected t ∨ e = .expected .closeParen t) ∧
      (∀ t, Program.parse source ≠ .error (.malformedNumber t)) ∧
      ∀ t, Program.parse source ≠ .error (.expected .endOfInput t) := by
  refine ⟨?_, ?_, ?_, ?_⟩
  · intro e
    constructor
    · intro h
      rw [Program.parse, h]
    · intro h
      rcases parse_error_cases h with ⟨e', hTokens, hError⟩ | ⟨_, _, _, _, hError | hError⟩
      · cases hError
        exact hTokens
      · cases hError
      · cases hError
  · intro tokens e hTokens h
    exact exists_token_of_parse_error hTokens h
  · intro t h
    rcases parse_error_cases h with ⟨_, _, hError⟩ | ⟨_, _, _, _, hError | hError⟩
    all_goals cases hError
  · intro t h
    rcases parse_error_cases h with ⟨_, _, hError⟩ | ⟨_, _, _, _, hError | hError⟩
    all_goals cases hError

/-- An illegal character wins over the parenthesis in front of it that nothing has opened, and a
parenthesis that is not closed is reported at the end of the source. -/
theorem parse_error_of_source_kinds :
    Program.parse ") $" = .error (.scan ⟨⟨1, 3⟩, '$'⟩) ∧
      Program.parse "(x" = .error (.expected .closeParen (.endAt ⟨1, 3⟩)) ∧
      ∃ t ∈ [⟨.openParen, "(", ⟨1, 1⟩, ⟨1, 2⟩⟩, ⟨.identifier, "x", ⟨1, 2⟩, ⟨1, 3⟩⟩, Token.endAt ⟨1, 3⟩],
        ParseError.expected .closeParen (.endAt ⟨1, 3⟩) = .unexpected t ∨
          ParseError.expected .closeParen (.endAt ⟨1, 3⟩) = .expected .closeParen t := by
  have hError : tokenize ") $" = .error ⟨⟨1, 3⟩, '$'⟩ := by cbv
  have hTokens : tokenize "(x" = .ok [⟨.openParen, "(", ⟨1, 1⟩, ⟨1, 2⟩⟩,
    ⟨.identifier, "x", ⟨1, 2⟩, ⟨1, 3⟩⟩, .endAt ⟨1, 3⟩] := by cbv
  have hParse : Program.parse "(x" = .error (.expected .closeParen (.endAt ⟨1, 3⟩)) := by cbv
  refine ⟨((parse_error_of_source ") $").1 _).mp hError, hParse, ?_⟩
  exact (parse_error_of_source "(x").2.1 _ _ hTokens hParse

end Reckoner
