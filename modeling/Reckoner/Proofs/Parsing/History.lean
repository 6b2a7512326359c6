import Reckoner.Expr.Grammar
import Reckoner.Expr.Parser

/-! # What a state of the parser remembers

Each place of the parser stands for a derivation that is under way. `Read tokens s` says which tokens
lead to a state: the finished statements, then for every open parenthesis the pending operations of the
level outside it, then those of the innermost level, and behind an operand the operand itself. One step
reads one token more, so a run from the start has read exactly its input.
-/
namespace Reckoner.Parser
set_option autoImplicit false

open Grammar

theorem spellsAll_append {ts us : List Token} {es fs : List Expr} (hLeft : SpellsAll ts es)
    (hRight : SpellsAll us fs) : SpellsAll (ts ++ us) (es ++ fs) := by
  induction hLeft with
  | nil => exact hRight
  | cons hHead _ ih =>
    rw [List.append_assoc]
    exact .cons hHead ih

theorem spellsAll_single {ts : List Token} {e : Expr} (h : Spells .sum ts e) : SpellsAll ts [e] := by
  have hAll := SpellsAll.cons h .nil
  rwa [List.append_nil] at hAll

theorem spellsAll_forall_isEnd {ts : List Token} {es : List Expr} (h : SpellsAll ts es) :
    ∀ t ∈ ts, t.isEnd = false := by
  induction h with
  | nil => simp
  | cons hHead _ ih =>
    intro t ht
    rcases List.mem_append.mp ht with hFirst | hRest
    · exact hHead.forall_isEnd t hFirst
    · exact ih t hRest

/-- The tokens of a pending operation: a phrase of a tier and an operator of that tier behind it. -/
def Pending.Opened (tier : Tier) (binds : Operator → Bool) (ts : List Token) : Option Pending → Prop
  | none => ts = []
  | some ⟨left, op⟩ =>
    ∃ us t, ts = us ++ [t] ∧ Spells tier us left ∧ t.operator? = some op ∧ binds op = true

/-- The tokens of the pending operations of a level. -/
def Level.Opened (level : Level) (ts : List Token) : Prop :=
  ∃ us vs, ts = us ++ vs ∧ Pending.Opened .sum Operator.isAdditive us level.sum ∧
    Pending.Opened .product Operator.isMultiplicative vs level.product

/-- The tokens in front of the innermost level, with the parentheses that are still open. -/
def Enclosing : List Level → List Token → Prop
  | [], ts => ts = []
  | level :: outer, ts =>
    ∃ us vs left, ts = us ++ vs ++ [left] ∧ Enclosing outer us ∧ level.Opened vs ∧
      left.kind = .openParen

inductive Read : List Token → State → Prop where
  | between {ts : List Token} {done : List Expr} : SpellsAll ts done.reverse →
      Read ts ⟨done, .between⟩
  | before {ts us vs : List Token} {done : List Expr} {level : Level} {outer : List Level} :
      SpellsAll ts done.reverse → Enclosing outer us → level.Opened vs →
      Read (ts ++ us ++ vs) ⟨done, .before level outer⟩
  | behind {ts us vs ws : List Token} {done : List Expr} {last : Expr} {level : Level}
      {outer : List Level} : SpellsAll ts done.reverse → Enclosing outer us → level.Opened vs →
      Spells .operand ws last → Read (ts ++ us ++ vs ++ ws) ⟨done, .behind last level outer⟩
  | closed {ts : List Token} {done : List Expr} {t : Token} : SpellsAll ts done.reverse →
      t.isEnd = true → Read (ts ++ [t]) ⟨done, .closed⟩

theorem Level.opened_empty : Level.Opened {} [] := ⟨[], [], rfl, rfl, rfl⟩

theorem Pending.spells_close {pending : Option Pending} {vs ws : List Token} {last : Expr}
    (h : Pending.Opened .product Operator.isMultiplicative vs pending)
    (hLast : Spells .operand ws last) :
    Spells .product (vs ++ ws) (Pending.close pending last) := by
  cases pending with
  | none =>
    have hNil : vs = [] := h
    subst hNil
    exact .single hLast
  | some pending =>
    obtain ⟨us, t, rfl, hLeft, hOp, hBinds⟩ := h
    rw [List.append_assoc]
    exact .times hLeft hOp hBinds hLast

theorem Level.spells_closeSum {level : Level} {vs ws : List Token} {last : Expr}
    (h : level.Opened vs) (hLast : Spells .operand ws last) :
    Spells .sum (vs ++ ws) (level.closeSum last) := by
  obtain ⟨us, vs, rfl, hSum, hProduct⟩ := h
  have hClosed := Pending.spells_close hProduct hLast
  rcases level with ⟨sum, product⟩
  cases sum with
  | none =>
    have hNil : us = [] := hSum
    subst hNil
    exact .alone hClosed
  | some pending =>
    obtain ⟨as, t, rfl, hLeft, hOp, hBinds⟩ := hSum
    rw [List.append_assoc, List.append_assoc]
    exact .plus hLeft hOp hBinds hClosed

theorem Level.opened_push {level : Level} {vs ws : List Token} {last : Expr} {t : Token}
    {op : Operator} (h : level.Opened vs) (hLast : Spells .operand ws last)
    (hOp : t.operator? = some op) : (level.push last op).Opened (vs ++ ws ++ [t]) := by
  unfold Level.push
  split
  · rename_i hAdditive
    exact ⟨vs ++ ws ++ [t], [], by simp, ⟨vs ++ ws, t, rfl, spells_closeSum h hLast, hOp, hAdditive⟩,
      rfl⟩
  · rename_i hAdditive
    obtain ⟨us, vs, rfl, hSum, hProduct⟩ := h
    have hBinds : op.isMultiplicative = true := by simpa [Operator.isMultiplicative] using hAdditive
    refine ⟨us, vs ++ ws ++ [t], by simp, hSum, vs ++ ws, t, rfl, ?_, hOp, hBinds⟩
    exact Pending.spells_close hProduct hLast

theorem operand_cases {t : Token} {level : Level} {outer : List Level} {place : Place}
    (h : operand t level outer = .ok place) :
    (∃ e, Spells .operand [t] e ∧ place = .behind e level outer) ∨
      (t.kind = .openParen ∧ place = .before {} (level :: outer)) := by
  unfold operand at h
  split at h
  · rename_i hKind
    cases h
    exact .inl ⟨_, .name hKind, rfl⟩
  · rename_i hKind
    cases h
    exact .inl ⟨_, .null hKind, rfl⟩
  · rename_i hKind
    split at h
    · rename_i hValue
      cases h
      exact .inl ⟨_, .number hKind hValue, rfl⟩
    · cases h
  · rename_i hKind
    cases h
    exact .inr ⟨hKind, rfl⟩
  · cases h

theorem map_eq_ok {ε α β : Type} {f : α → β} {x : Except ε α} {b : β} (h : x.map f = .ok b) :
    ∃ a, x = .ok a ∧ b = f a := by
  cases x with
  | error e => cases h
  | ok a =>
    cases h
    exact ⟨a, rfl, rfl⟩

theorem map_eq_error {ε α β : Type} {f : α → β} {x : Except ε α} {e : ε} (h : x.map f = .error e) :
    x = .error e := by
  cases x with
  | error e =>
    cases h
    rfl
  | ok a => cases h

theorem bind_eq_ok {ε α β : Type} {f : α → Except ε β} {x : Except ε α} {b : β}
    (h : x.bind f = .ok b) : ∃ a, x = .ok a ∧ f a = .ok b := by
  cases x with
  | error e => cases h
  | ok a => exact ⟨a, rfl, h⟩

theorem Read.operand {ts us vs : List Token} {done : List Expr} {level : Level}
    {outer : List Level} {t : Token} {s : State} (hDone : SpellsAll ts done.reverse)
    (hOuter : Enclosing outer us) (hLevel : level.Opened vs)
    (h : (Parser.operand t level outer).map (State.mk done) = .ok s) :
    Read (ts ++ us ++ vs ++ [t]) s := by
  obtain ⟨place, hPlace, rfl⟩ := map_eq_ok h
  rcases operand_cases hPlace with ⟨e, hSpells, rfl⟩ | ⟨hKind, rfl⟩
  · exact .behind hDone hOuter hLevel hSpells
  · have hInner : Enclosing (level :: outer) (us ++ vs ++ [t]) := ⟨us, vs, t, rfl, hOuter, hLevel, hKind⟩
    have hRead := Read.before hDone hInner Level.opened_empty
    simpa using hRead

theorem Read.begin {ts : List Token} {done : List Expr} {t : Token} {s : State}
    (hDone : SpellsAll ts done.reverse) (h : State.begin done t = .ok s) : Read (ts ++ [t]) s := by
  unfold State.begin at h
  split at h
  · rename_i hEnd
    cases h
    exact .closed hDone hEnd
  · have hOuter : Enclosing [] [] := rfl
    have hRead := Read.operand hDone hOuter Level.opened_empty h
    simpa using hRead

theorem Read.step {ts : List Token} {s s' : State} {t : Token} (hRead : Read ts s)
    (h : s.step t = .ok s') : Read (ts ++ [t]) s' := by
  cases hRead with
  | between hDone => exact .begin hDone h
  | before hDone hOuter hLevel => exact .operand hDone hOuter hLevel h
  | closed hDone hEnd => cases h
  | @behind ts us vs ws done last level outer hDone hOuter hLevel hLast =>
    unfold State.step at h
    dsimp only at h
    split at h
    · rename_i op hOp
      cases h
      have hBefore := Read.before hDone hOuter (Level.opened_push hLevel hLast hOp)
      simpa using hBefore
    · have hSum := Level.spells_closeSum hLevel hLast
      split at h
      · -- no parenthesis is open: the statement is finished
        have hNil : us = [] := hOuter
        subst hNil
        have hAll := spellsAll_append hDone (spellsAll_single hSum)
        rw [← List.reverse_cons] at hAll
        simpa using Read.begin hAll h
      · split at h
        · rename_i hKind
          cases h
          obtain ⟨us, vs', left, rfl, hOuter, hLevel', hLeft⟩ := hOuter
          have hGroup := Spells.group hLeft hKind hSum
          simpa using Read.behind hDone hOuter hLevel' hGroup
        · cases h

theorem Read.run {us : List Token} {s s' : State} {ts : List Token} (hRead : Read ts s)
    (h : State.run us s = .ok s') : Read (ts ++ us) s' := by
  induction us generalizing ts s with
  | nil =>
    cases h
    simpa using hRead
  | cons t us ih =>
    rw [State.run_cons] at h
    obtain ⟨s₁, hStep, hRun⟩ := bind_eq_ok h
    have hRest := ih (hRead.step hStep) hRun
    simpa using hRest

theorem read_of_run {ts : List Token} {s : State} (h : State.run ts {} = .ok s) : Read ts s := by
  have hStart : Read [] {} := .between .nil
  exact hStart.run h

end Reckoner.Parser
