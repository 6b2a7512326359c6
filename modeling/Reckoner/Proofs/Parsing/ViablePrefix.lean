import Reckoner.Proofs.Parsing.Recognition

/-! # Where parsing fails

The parser fails at the first token that no program can have there. The tokens in front of it can be
completed: an operand where one is due, one closing parenthesis for each open one, and the closing
token. What follows the token at fault plays no part in the error.
-/
namespace Reckoner
set_option autoImplicit false

/-- The token that an error of the parser points at. -/
def ParseError.found? : ParseError → Option Token
  | scan _ => none
  | expected _ found | unexpected found | malformedNumber found => some found

namespace Parser

theorem operand_error {t : Token} {level : Level} {outer : List Level} {e : ParseError}
    (h : operand t level outer = .error e) : e = .unexpected t ∨
      (e = .malformedNumber t ∧ t.kind = .number ∧ Number.read? t.lexeme = none) := by
  unfold operand at h
  split at h
  · cases h
  · cases h
  · rename_i hKind
    split at h
    · cases h
    · rename_i hValue
      cases h
      exact .inr ⟨rfl, hKind, hValue⟩
  · cases h
  · cases h
    exact .inl rfl

theorem State.begin_error {done : List Expr} {t : Token} {e : ParseError}
    (h : State.begin done t = .error e) : e = .unexpected t ∨
      (e = .malformedNumber t ∧ t.kind = .number ∧ Number.read? t.lexeme = none) := by
  unfold State.begin at h
  split at h
  · cases h
  · exact operand_error (map_eq_error h)

/-- A step refuses a token that is no operand where one is due, one that stands where a parenthesis has
to be closed, or any token behind the closing one. -/
theorem State.step_error_cases {s : State} {t : Token} {e : ParseError} (h : s.step t = .error e) :
    (e = .unexpected t ∨
      (e = .malformedNumber t ∧ t.kind = .number ∧ Number.read? t.lexeme = none)) ∨
      e = .expected .closeParen t ∨ (e = .expected .endOfInput t ∧ s.place = .closed) := by
  rcases s with ⟨done, place⟩
  cases place with
  | between => exact .inl (State.begin_error h)
  | before level outer => exact .inl (operand_error (map_eq_error h))
  | closed =>
    cases h
    exact .inr (.inr ⟨rfl, rfl⟩)
  | behind last level outer =>
    unfold State.step at h
    dsimp only at h
    split at h
    · cases h
    split at h
    · exact .inl (State.begin_error h)
    split at h
    · cases h
    · cases h
      exact .inr (.inl rfl)

theorem State.step_error {s : State} {t : Token} {e : ParseError} (h : s.step t = .error e) :
    e.found? = some t := by
  rcases State.step_error_cases h with (rfl | ⟨rfl, _⟩) | rfl | ⟨rfl, _⟩
  all_goals rfl

theorem State.exists_step_error {ts : List Token} {s : State} {e : ParseError}
    (h : State.run ts s = .error e) :
    ∃ us t rest s', ts = us ++ t :: rest ∧ State.run us s = .ok s' ∧ s'.step t = .error e := by
  induction ts generalizing s with
  | nil => cases h
  | cons t ts ih =>
    rw [State.run_cons] at h
    cases hStep : s.step t with
    | error e' =>
      rw [hStep] at h
      cases h
      exact ⟨[], t, ts, s, rfl, rfl, hStep⟩
    | ok s₁ =>
      rw [hStep] at h
      obtain ⟨us, t', rest, s', rfl, hRun, hError⟩ := ih h
      refine ⟨t :: us, t', rest, s', rfl, ?_, hError⟩
      rw [State.run_cons_of_ok hStep]
      exact hRun

def closeToken : Token := ⟨.closeParen, ")", .first, .first⟩

def nullToken : Token := ⟨.null, "null", .first, .first⟩

/-- Tokens that finish the program from a place on. -/
def Place.completion : Place → List Token
  | .between => [.endAt .first]
  | .before _ outer => nullToken :: List.replicate outer.length closeToken ++ [.endAt .first]
  | .behind _ _ outer => List.replicate outer.length closeToken ++ [.endAt .first]
  | .closed => []

theorem State.run_closers (done : List Expr) (last : Expr) (level : Level) (outer : List Level) :
    ∃ s, State.run (Place.completion (.behind last level outer)) ⟨done, .behind last level outer⟩ =
      .ok s := by
  induction outer generalizing last level with
  | nil =>
    have hStep := State.step_end (.behind done last level) (Token.isEnd_endAt .first)
    exact ⟨_, State.run_cons_of_ok hStep []⟩
  | cons level' outer ih =>
    obtain ⟨s, hRun⟩ := ih (level.closeSum last) level'
    have hStep : State.step ⟨done, .behind last level (level' :: outer)⟩ closeToken = _ :=
      State.step_close rfl done last level level' outer
    refine ⟨s, ?_⟩
    simp only [Place.completion, List.length_cons, List.replicate_succ, List.cons_append]
    rw [State.run_cons_of_ok hStep]
    exact hRun

theorem State.run_completion (s : State) : ∃ s', State.run s.place.completion s = .ok s' := by
  rcases s with ⟨done, place⟩
  cases place with
  | between => exact ⟨_, State.run_cons_of_ok (State.step_end (.between done) rfl) []⟩
  | before level outer =>
    obtain ⟨s, hRun⟩ := State.run_closers done .null level outer
    have hStep : State.step ⟨done, .before level outer⟩ nullToken =
        .ok ⟨done, .behind .null level outer⟩ := rfl
    exact ⟨s, (State.run_cons_of_ok hStep _).trans hRun⟩
  | behind last level outer => exact State.run_closers done last level outer
  | closed => exact ⟨_, rfl⟩

/-- Whatever the parser has read without failing begins a sequence that it accepts. -/
theorem exists_accepted {ts : List Token} {s : State} (h : State.run ts {} = .ok s) :
    ∃ accepted p, ts <+: accepted ∧ Program.ofTokens accepted = .ok p := by
  obtain ⟨s', hRest⟩ := State.run_completion s
  have hRun : State.run (ts ++ s.place.completion) {} = .ok s' := by
    rw [State.run_append_of_ok h, hRest]
  have hTerminated : terminated (ts ++ s.place.completion) = ts ++ s.place.completion := by
    rcases s with ⟨done, place⟩
    cases place with
    | between => exact terminated_of_end ts rfl
    | before level outer =>
      rw [Place.completion, ← List.append_assoc]
      exact terminated_of_end _ rfl
    | behind last level outer =>
      rw [Place.completion, ← List.append_assoc]
      exact terminated_of_end _ rfl
    | closed =>
      have hRead := read_of_run h
      cases hRead with
      | closed _ hEnd =>
        rw [Place.completion, List.append_nil]
        exact terminated_of_end _ hEnd
  refine ⟨ts ++ s.place.completion, ⟨s'.done.reverse⟩, List.prefix_append _ _, ?_⟩
  rw [Program.ofTokens, hTerminated, hRun]
  rfl

/-- A failing parse blames a token whose predecessors begin an accepted sequence, and every sequence
that agrees up to that token fails alike. -/
theorem ofTokens_error_viable {tokens : List Token} {e : ParseError}
    (h : Program.ofTokens tokens = .error e) :
    ∃ k t, (terminated tokens)[k]? = some t ∧ e.found? = some t ∧
      (∃ accepted p, (terminated tokens).take k <+: accepted ∧
        Program.ofTokens accepted = .ok p) ∧
      ∀ others : List Token,
        (terminated others).take (k + 1) = (terminated tokens).take (k + 1) →
        Program.ofTokens others = .error e := by
  obtain ⟨us, t, rest, s, hTokens, hBefore, hStep⟩ := State.exists_step_error (map_eq_error h)
  have hPrefix : (terminated tokens).take us.length = us := by simp [hTokens]
  have hThrough : (terminated tokens).take (us.length + 1) = us ++ [t] := by
    rw [hTokens, List.append_cons]
    exact List.take_left' (by simp)
  refine ⟨us.length, t, by simp [hTokens], State.step_error hStep, ?_, ?_⟩
  · rw [hPrefix]
    exact exists_accepted hBefore
  · intro others hSame
    rw [hThrough] at hSame
    have hSplit := List.take_append_drop (us.length + 1) (terminated others)
    rw [hSame] at hSplit
    have hFails : State.run (us ++ [t]) {} = .error e := by
      rw [State.run_append_of_ok hBefore, State.run_cons, hStep]
      rfl
    rw [Program.ofTokens, ← hSplit, State.run_append, hFails]
    rfl

/-- In a parenthesis that holds two operands in a row, the second one is at fault. -/
theorem ofTokens_error_viable_unclosed :
    let tokens : List Token := [⟨.openParen, "(", .first, .first⟩, nullToken, nullToken, closeToken]
    let e : ParseError := .expected .closeParen nullToken
    Program.ofTokens tokens = .error e ∧
      ∃ k t, (terminated tokens)[k]? = some t ∧ e.found? = some t ∧
        (∃ accepted p, (terminated tokens).take k <+: accepted ∧
          Program.ofTokens accepted = .ok p) ∧
        ∀ others : List Token,
          (terminated others).take (k + 1) = (terminated tokens).take (k + 1) →
          Program.ofTokens others = .error e := by
  intro tokens e
  have h : Program.ofTokens tokens = .error e := rfl
  exact ⟨h, ofTokens_error_viable h⟩

end Parser
end Reckoner
