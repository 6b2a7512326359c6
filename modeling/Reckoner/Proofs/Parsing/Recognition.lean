import Reckoner.Proofs.Parsing.History

/-! # The parser recognises the grammar

A phrase of any tier takes the parser from the place in front of it to the place behind it, and leaves
on the innermost level only pending operations that close to the tree of the phrase. With what a state
remembers, this makes acceptance and derivation the same thing. Neither the trees nor the cuts between
statements are open to choice.
-/
namespace Reckoner.Parser
set_option autoImplicit false

open Grammar

/-- A state that may end a program here: `done` are its statements, newest first. -/
inductive State.Rests : State → List Expr → Prop where
  | between (done : List Expr) : Rests ⟨done, .between⟩ done
  | behind (done : List Expr) (last : Expr) (level : Level) :
      Rests ⟨done, .behind last level []⟩ (level.closeSum last :: done)

theorem operator?_eq_none {t : Token} (h : t.kind ≠ .operator) : t.operator? = none := if_neg h

theorem State.step_of_rests {s : State} {done : List Expr} {t : Token} (hRests : s.Rests done)
    (hOp : t.operator? = none) : s.step t = State.begin done t := by
  cases hRests with
  | between => rfl
  | behind done last level => simp only [State.step, hOp]

theorem State.step_end {s : State} {done : List Expr} {t : Token} (hRests : s.Rests done)
    (hEnd : t.isEnd = true) : s.step t = .ok ⟨done, .closed⟩ := by
  have hKind : t.kind = .endOfInput := by simpa [Token.isEnd] using hEnd
  rw [State.step_of_rests hRests (operator?_eq_none (by simp [hKind])), State.begin, if_pos hEnd]

theorem State.step_operator {t : Token} {op : Operator} (h : t.operator? = some op)
    (done : List Expr) (last : Expr) (level : Level) (outer : List Level) :
    State.step ⟨done, .behind last level outer⟩ t =
      .ok ⟨done, .before (level.push last op) outer⟩ := by
  simp only [State.step, h]

theorem State.step_close {t : Token} (h : t.kind = .closeParen) (done : List Expr) (last : Expr)
    (level level' : Level) (outer : List Level) :
    State.step ⟨done, .behind last level (level' :: outer)⟩ t =
      .ok ⟨done, .behind (level.closeSum last) level' outer⟩ := by
  simp only [State.step, operator?_eq_none (show t.kind ≠ .operator by simp [h]), if_pos h]

theorem State.step_open {t : Token} (h : t.kind = .openParen) (done : List Expr) (level : Level)
    (outer : List Level) : State.step ⟨done, .before level outer⟩ t =
      .ok ⟨done, .before {} (level :: outer)⟩ := by
  simp only [State.step, operand, h]
  rfl

theorem State.run_append_of_ok {a : List Token} {s s' : State} (h : State.run a s = .ok s')
    (b : List Token) : State.run (a ++ b) s = State.run b s' := by
  rw [State.run_append, h]
  rfl

theorem State.run_cons_of_ok {t : Token} {s s' : State} (h : s.step t = .ok s') (b : List Token) :
    State.run (t :: b) s = State.run b s' := by
  rw [State.run_cons, h]
  rfl

theorem spells_head {tier : Tier} {ts : List Token} {e : Expr} (h : Spells tier ts e) :
    ∃ t rest, ts = t :: rest ∧ t.operator? = none := by
  induction h with
  | @name t hKind | @null t hKind | @number t _ hKind _ =>
    exact ⟨t, [], rfl, operator?_eq_none (by simp [hKind])⟩
  | @group left right ts _ hLeft _ _ _ =>
    exact ⟨left, ts ++ [right], rfl, operator?_eq_none (by simp [hLeft])⟩
  | single _ ih | alone _ ih => exact ih
  | times _ _ _ _ ih _ | plus _ _ _ _ ih _ =>
    obtain ⟨t, rest, rfl, hOp⟩ := ih
    exact ⟨t, _, List.cons_append, hOp⟩

/-- How a phrase moves the parser. An operand may stand at any level; the first product of a sum finds
no pending product, and the first product of a parenthesis no pending sum either. -/
def Crosses (ts : List Token) (e : Expr) : Tier → Prop
  | .operand => ∀ done level outer,
      State.run ts ⟨done, .before level outer⟩ = .ok ⟨done, .behind e level outer⟩
  | .product => ∀ done sum outer, ∃ last product,
      State.run ts ⟨done, .before ⟨sum, none⟩ outer⟩ =
        .ok ⟨done, .behind last ⟨sum, product⟩ outer⟩ ∧ Pending.close product last = e
  | .sum => ∀ done outer, ∃ last level,
      State.run ts ⟨done, .before {} outer⟩ = .ok ⟨done, .behind last level outer⟩ ∧
        level.closeSum last = e

theorem crosses_of_spells {tier : Tier} {ts : List Token} {e : Expr} (h : Spells tier ts e) :
    Crosses ts e tier := by
  induction h with
  | @name t hKind | @null t hKind =>
    intro done level outer
    simp only [State.run_cons, State.step, operand, hKind]
    rfl
  | @number t x hKind hValue =>
    intro done level outer
    simp only [State.run_cons, State.step, operand, hKind, hValue]
    rfl
  | @group left right ts e hLeft hRight _ ih =>
    intro done level outer
    obtain ⟨last, level', hRun, rfl⟩ := ih done (level :: outer)
    rw [List.cons_append, State.run_cons_of_ok (State.step_open hLeft done level outer),
      State.run_append_of_ok hRun,
      State.run_cons_of_ok (State.step_close hRight done last level' level outer)]
    rfl
  | @single ts e _ ih =>
    intro done sum outer
    exact ⟨e, none, ih done ⟨sum, none⟩ outer, rfl⟩
  | @times ts us t op a b _ hOp hBinds _ ihLeft ihRight =>
    intro done sum outer
    obtain ⟨last, product, hRun, rfl⟩ := ihLeft done sum outer
    have hPush : Level.push ⟨sum, product⟩ last op = ⟨sum, some ⟨Pending.close product last, op⟩⟩ := by
      have hAdditive : op.isAdditive = false := by simpa [Operator.isMultiplicative] using hBinds
      simp [Level.push, hAdditive, Level.closeProduct]
    refine ⟨b, some ⟨Pending.close product last, op⟩, ?_, rfl⟩
    rw [State.run_append_of_ok hRun,
      State.run_cons_of_ok (State.step_operator hOp done last _ outer), hPush]
    exact ihRight done ⟨sum, _⟩ outer
  | @alone ts e _ ih =>
    intro done outer
    obtain ⟨last, product, hRun, rfl⟩ := ih done none outer
    exact ⟨last, ⟨none, product⟩, hRun, rfl⟩
  | @plus ts us t op a b _ hOp hBinds _ ihLeft ihRight =>
    intro done outer
    obtain ⟨last, level, hRun, rfl⟩ := ihLeft done outer
    have hPush : level.push last op = ⟨some ⟨level.closeSum last, op⟩, none⟩ := by
      simp [Level.push, hBinds]
    obtain ⟨last', product, hRun', rfl⟩ := ihRight done (some ⟨level.closeSum last, op⟩) outer
    refine ⟨last', ⟨some ⟨level.closeSum last, op⟩, product⟩, ?_, rfl⟩
    rw [State.run_append_of_ok hRun,
      State.run_cons_of_ok (State.step_operator hOp done last level outer), hPush]
    exact hRun'

theorem run_of_rests {s : State} {done : List Expr} {ts : List Token} {e : Expr}
    (hRests : s.Rests done) (h : Spells .sum ts e) :
    State.run ts s = State.run ts ⟨done, .before {} []⟩ := by
  have hEnds := h.forall_isEnd
  obtain ⟨t, rest, rfl, hOp⟩ := spells_head h
  have hEnd : t.isEnd = false := hEnds t List.mem_cons_self
  rw [State.run_cons, State.run_cons, State.step_of_rests hRests hOp, State.begin]
  simp only [hEnd, State.step]
  rfl

theorem exists_run_of_spellsAll {ts : List Token} {es : List Expr} (h : SpellsAll ts es) {s : State}
    {done : List Expr} (hRests : s.Rests done) :
    ∃ s', State.run ts s = .ok s' ∧ s'.Rests (es.reverse ++ done) := by
  induction h generalizing s done with
  | nil => exact ⟨s, rfl, hRests⟩
  | @cons ts us e es hHead _ ih =>
    obtain ⟨last, level, hRun, rfl⟩ := crosses_of_spells hHead done []
    obtain ⟨s', hRest, hRests'⟩ := ih (State.Rests.behind done last level)
    refine ⟨s', ?_, by simpa using hRests'⟩
    rw [State.run_append, run_of_rests hRests hHead, hRun]
    exact hRest

theorem terminated_of_end (ts : List Token) {last : Token} (h : last.isEnd = true) :
    terminated (ts ++ [last]) = ts ++ [last] := by
  simp [terminated, h]

theorem terminated_of_forall {ts : List Token} (h : ∀ t ∈ ts, t.isEnd = false) :
    terminated ts = ts ++ [.endAt (endOf ts)] := by
  have hLast : ts.getLast?.any Token.isEnd = false := by
    cases hLast : ts.getLast? with
    | none => rfl
    | some t => exact h t (List.mem_of_getLast? hLast)
  simp [terminated, hLast]

theorem exists_terminated (tokens : List Token) :
    ∃ ts last, terminated tokens = ts ++ [last] ∧ last.isEnd = true ∧
      (tokens = ts ∨ tokens = ts ++ [last]) := by
  unfold terminated
  split
  · rename_i hAny
    obtain ⟨last, hLast, hEnd⟩ := (Option.any_eq_true _ _).mp hAny
    obtain ⟨ts, rfl⟩ := List.getLast?_eq_some_iff.mp hLast
    exact ⟨ts, last, rfl, hEnd, .inr rfl⟩
  · exact ⟨tokens, .endAt (endOf tokens), rfl, rfl, .inl rfl⟩

theorem State.rests_of_step_end {s s' : State} {t : Token} (hEnd : t.isEnd = true)
    (h : s.step t = .ok s') : ∃ done, s.Rests done ∧ s' = ⟨done, .closed⟩ := by
  have hKind : t.kind = .endOfInput := by simpa [Token.isEnd] using hEnd
  rcases s with ⟨done, place⟩
  cases place with
  | between =>
    have hStep := State.step_end (.between done) hEnd
    rw [hStep] at h
    cases h
    exact ⟨done, .between done, rfl⟩
  | before level outer =>
    simp only [State.step, operand, hKind] at h
    cases h
  | behind last level outer =>
    cases outer with
    | nil =>
      have hStep := State.step_end (.behind done last level) hEnd
      rw [hStep] at h
      cases h
      exact ⟨_, .behind done last level, rfl⟩
    | cons level' outer =>
      simp only [State.step, operator?_eq_none (show t.kind ≠ .operator by simp [hKind]), hKind] at h
      cases h
  | closed => cases h

theorem Read.spellsAll_of_rests {ts : List Token} {s : State} {done : List Expr} (hRead : Read ts s)
    (hRests : s.Rests done) : SpellsAll ts done.reverse := by
  cases hRests with
  | between =>
    cases hRead with
    | between hDone => exact hDone
  | behind done last level =>
    cases hRead with
    | @behind ts us vs ws _ _ _ _ hDone hOuter hLevel hLast =>
      have hNil : us = [] := hOuter
      subst hNil
      have hSum := Level.spells_closeSum hLevel hLast
      have hAll := spellsAll_append hDone (spellsAll_single hSum)
      simpa using hAll

theorem spellsAll_of_ofTokens {tokens : List Token} {body : List Expr}
    (h : Program.ofTokens tokens = .ok ⟨body⟩) :
    ∃ ts, (∀ t ∈ ts, t.isEnd = false) ∧
      (tokens = ts ∨ ∃ last : Token, last.isEnd = true ∧ tokens = ts ++ [last]) ∧
      SpellsAll ts body := by
  obtain ⟨s, hRun, hBody⟩ := map_eq_ok h
  cases hBody
  obtain ⟨ts, last, hTokens, hEnd, hForm⟩ := exists_terminated tokens
  rw [hTokens, State.run_append] at hRun
  obtain ⟨front, hFront, hLast⟩ := bind_eq_ok hRun
  rw [State.run_cons] at hLast
  obtain ⟨s', hStep, hNil⟩ := bind_eq_ok hLast
  cases hNil
  obtain ⟨done, hRests, rfl⟩ := State.rests_of_step_end hEnd hStep
  have hAll := (read_of_run hFront).spellsAll_of_rests hRests
  refine ⟨ts, spellsAll_forall_isEnd hAll, ?_, hAll⟩
  exact hForm.imp id fun hEq => ⟨last, hEnd, hEq⟩

theorem exists_spellsAll_of_parse {source : String} {p : Program}
    (h : Program.parse source = .ok p) :
    ∃ tokens, tokenize source = .ok tokens ∧
      SpellsAll (tokens.filter fun t => !t.isEnd) p.body := by
  unfold Program.parse at h
  split at h
  · cases h
  · rename_i tokens hTokens
    refine ⟨tokens, hTokens, ?_⟩
    obtain ⟨ts, hEnds, hForm, hAll⟩ := spellsAll_of_ofTokens h
    have hFilter : ts.filter (fun t => !t.isEnd) = ts :=
      List.filter_eq_self.mpr fun t ht => by simp [hEnds t ht]
    rcases hForm with rfl | ⟨last, hLast, rfl⟩
    · rwa [hFilter]
    · rw [List.filter_append, hFilter]
      simpa [hLast] using hAll

theorem ofTokens_of_spellsAll {ts : List Token} {body : List Expr} (h : SpellsAll ts body) :
    Program.ofTokens ts = .ok ⟨body⟩ ∧
      ∀ last : Token, last.isEnd = true → Program.ofTokens (ts ++ [last]) = .ok ⟨body⟩ := by
  obtain ⟨s, hRun, hRests⟩ := exists_run_of_spellsAll h (State.Rests.between [])
  have hClosed : ∀ last : Token, last.isEnd = true →
      (State.run (ts ++ [last]) {}).map (fun s => Program.mk s.done.reverse) = .ok ⟨body⟩ := by
    intro last hEnd
    rw [State.run_append_of_ok hRun, State.run_cons_of_ok (State.step_end hRests hEnd)]
    simp [Except.map]
  refine ⟨?_, fun last hEnd => ?_⟩
  · rw [Program.ofTokens, terminated_of_forall (spellsAll_forall_isEnd h)]
    exact hClosed _ rfl
  · rw [Program.ofTokens, terminated_of_end ts hEnd]
    exact hClosed last hEnd

theorem State.done_of_begin {done : List Expr} {t : Token} {s : State}
    (h : State.begin done t = .ok s) : s.done = done := by
  unfold State.begin at h
  split at h
  · cases h
    rfl
  · obtain ⟨place, _, rfl⟩ := map_eq_ok h
    rfl

theorem State.done_suffix_of_step {s s' : State} {t : Token} (h : s.step t = .ok s') :
    s.done <:+ s'.done := by
  rcases s with ⟨done, place⟩
  cases place with
  | between => exact (State.done_of_begin h).symm ▸ List.suffix_refl done
  | before level outer =>
    obtain ⟨place, _, rfl⟩ := map_eq_ok h
    exact List.suffix_refl done
  | closed => cases h
  | behind last level outer =>
    unfold State.step at h
    dsimp only at h
    split at h
    · cases h
      exact List.suffix_refl done
    split at h
    · rw [State.done_of_begin h]
      exact List.suffix_cons _ done
    split at h
    · cases h
      exact List.suffix_refl done
    · cases h

theorem State.done_suffix_of_run {ts : List Token} {s s' : State} (h : State.run ts s = .ok s') :
    s.done <:+ s'.done := by
  induction ts generalizing s with
  | nil =>
    cases h
    exact List.suffix_refl _
  | cons t ts ih =>
    rw [State.run_cons] at h
    obtain ⟨s₁, hStep, hRun⟩ := bind_eq_ok h
    exact (State.done_suffix_of_step hStep).trans (ih hRun)

theorem spells_unique {ts : List Token} {e e' : Expr} (h : Spells .sum ts e)
    (h' : Spells .sum ts e') : e = e' := by
  obtain ⟨last, level, hRun, rfl⟩ := crosses_of_spells h [] []
  obtain ⟨last', level', hRun', rfl⟩ := crosses_of_spells h' [] []
  rw [hRun] at hRun'
  cases hRun'
  rfl

/-- A sum does not go on into a longer one with a token that is no operator: the parser would finish a
statement there, and statements are never taken back. -/
theorem not_spells_longer {ts us : List Token} {t : Token} {e e' : Expr} (h : Spells .sum ts e)
    (hOp : t.operator? = none) : ¬Spells .sum (ts ++ t :: us) e' := by
  intro hLonger
  obtain ⟨last, level, hRun, _⟩ := crosses_of_spells h [] []
  obtain ⟨last', level', hRun', _⟩ := crosses_of_spells hLonger [] []
  rw [State.run_append_of_ok hRun, State.run_cons] at hRun'
  obtain ⟨s, hStep, hRest⟩ := bind_eq_ok hRun'
  rw [State.step_of_rests (.behind [] last level) hOp] at hStep
  have hSuffix := State.done_suffix_of_run hRest
  rw [State.done_of_begin hStep] at hSuffix
  have hLength := hSuffix.length_le
  simp at hLength

/-- Statements together with their tokens. -/
def Statements (parts : List (List Token × Expr)) : Prop := ∀ part ∈ parts, Spells .sum part.1 part.2

theorem statements_cut {part part' : List Token × Expr} {rest rest' : List (List Token × Expr)}
    (h : Statements (part :: rest)) (h' : Statements (part' :: rest')) {us : List Token}
    (hLonger : part'.1 = part.1 ++ us) (hRest : rest.flatMap Prod.fst = us ++ rest'.flatMap Prod.fst) :
    us = [] := by
  cases us with
  | nil => rfl
  | cons t us =>
    cases rest with
    | nil => cases hRest
    | cons next rest =>
      have hNext : Spells .sum next.1 next.2 := h next (by simp)
      obtain ⟨first, others, hFirst, hOp⟩ := spells_head hNext
      rw [List.flatMap_cons, hFirst] at hRest
      obtain rfl : first = t := (List.cons.inj hRest).1
      have hPart : Spells .sum part.1 part.2 := h part (by simp)
      have hPart' : Spells .sum part'.1 part'.2 := h' part' (by simp)
      rw [hLonger] at hPart'
      exact absurd hPart' (not_spells_longer hPart hOp)

theorem statements_unique {parts parts' : List (List Token × Expr)} (h : Statements parts)
    (h' : Statements parts') (hTokens : parts.flatMap Prod.fst = parts'.flatMap Prod.fst) :
    parts = parts' := by
  induction parts generalizing parts' with
  | nil =>
    cases parts' with
    | nil => rfl
    | cons part' rest' =>
      have hNil : part'.1 = [] := by simp_all
      exact absurd hNil (h' part' (by simp)).ne_nil
  | cons part rest ih =>
    cases parts' with
    | nil =>
      have hNil : part.1 = [] := by simp_all
      exact absurd hNil (h part (by simp)).ne_nil
    | cons part' rest' =>
      rw [List.flatMap_cons, List.flatMap_cons] at hTokens
      -- one of the two first phrases is a beginning of the other
      have hFirst : part.1 = part'.1 := by
        rcases List.append_eq_append_iff.mp hTokens with ⟨us, hLonger, hRest⟩ | ⟨us, hLonger, hRest⟩
        · rw [statements_cut h h' hLonger hRest, List.append_nil] at hLonger
          exact hLonger.symm
        · rw [statements_cut h' h hLonger hRest, List.append_nil] at hLonger
          exact hLonger
      have hPart : Spells .sum part.1 part.2 := h part (by simp)
      have hPart' : Spells .sum part'.1 part'.2 := h' part' (by simp)
      rw [← hFirst] at hPart' hTokens
      have hTree := spells_unique hPart hPart'
      have hOthers := ih (fun p hp => h p (by simp [hp])) (fun p hp => h' p (by simp [hp]))
        (List.append_cancel_left hTokens)
      rw [hOthers, Prod.ext hFirst hTree]

theorem exists_statements {ts : List Token} {es : List Expr} (h : SpellsAll ts es) :
    ∃ parts, Statements parts ∧ parts.flatMap Prod.fst = ts ∧ parts.map Prod.snd = es := by
  induction h with
  | nil => exact ⟨[], by simp [Statements], rfl, rfl⟩
  | @cons ts us e es hHead _ ih =>
    obtain ⟨parts, hParts, rfl, rfl⟩ := ih
    refine ⟨(ts, e) :: parts, ?_, by simp, by simp⟩
    intro part hPart
    rcases List.mem_cons.mp hPart with rfl | hRest
    · exact hHead
    · exact hParts part hRest

/-- The parser accepts exactly the sequences of statements, with or without one closing token behind
them, and returns their trees. The trees are determined by the tokens, and so is where one statement
ends and the next begins. -/
theorem ofTokens_recognizes :
    (∀ (tokens : List Token) (body : List Expr), Program.ofTokens tokens = .ok ⟨body⟩ ↔
      ∃ ts, (∀ t ∈ ts, t.isEnd = false) ∧
        (tokens = ts ∨ ∃ last : Token, last.isEnd = true ∧ tokens = ts ++ [last]) ∧
        SpellsAll ts body) ∧
    (∀ (ts : List Token) (body body' : List Expr),
      SpellsAll ts body → SpellsAll ts body' → body = body') ∧
    ∀ parts parts' : List (List Token × Expr), Statements parts → Statements parts' →
      parts.flatMap Prod.fst = parts'.flatMap Prod.fst → parts = parts' := by
  refine ⟨?_, ?_, fun parts parts' => statements_unique⟩
  · intro tokens body
    constructor
    · exact spellsAll_of_ofTokens
    · rintro ⟨ts, _, rfl | ⟨last, hEnd, rfl⟩, hAll⟩
      · exact (ofTokens_of_spellsAll hAll).1
      · exact (ofTokens_of_spellsAll hAll).2 last hEnd
  · intro ts body body' h h'
    obtain ⟨parts, hParts, hTokens, rfl⟩ := exists_statements h
    obtain ⟨parts', hParts', hTokens', rfl⟩ := exists_statements h'
    rw [statements_unique hParts hParts' (hTokens.trans hTokens'.symm)]

end Reckoner.Parser
