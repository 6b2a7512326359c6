import Reckoner.Proofs.Parsing.Cursor
import Reckoner.Proofs.Parsing.Recognition

/-! # Descent through the tiers

A program can be read by descending through the tiers of the grammar: a phrase calls for the phrases it is
made of, and a loop goes on for as long as operators of the tier follow. The readers are granted a depth,
and there is no outcome when their calls nest deeper. But what is read takes the cursor forward and the
closing token holds it back, so that a depth in proportion to the tokens ahead is always enough, and a
greater one changes nothing. What is read then is what the parser reads, with the same refusals.
-/
namespace Reckoner
set_option autoImplicit false

namespace Grammar.Tier

/-- The tier of the phrases that are joined to a phrase of the tier. -/
def part : Tier → Tier
  | sum => product
  | product => operand
  | operand => operand

/-- The operators that join them. -/
def joins : Tier → Operator → Bool
  | sum => Operator.isAdditive
  | product => Operator.isMultiplicative
  | operand => fun _ => false

/-- How deep the calls nest from a phrase of the tier down to its first operand. -/
def height : Tier → Nat
  | operand => 1
  | product => 2
  | sum => 3

/-- The token does not go on a phrase of the tier. -/
def Stops : Tier → Token → Prop
  | sum, t => t.operator? = none
  | product, t => ∀ op, t.operator? = some op → op.isMultiplicative = false
  | operand, _ => True

theorem Stops.joined {tier : Tier} {t : Token} (hPart : tier.part.Stops t)
    (hOp : ∀ op, t.operator? = some op → tier.joins op = false) : tier.Stops t := by
  cases tier with
  | operand => trivial
  | product => exact hOp
  | sum =>
    refine Option.eq_none_iff_forall_ne_some.mpr fun op hSome => ?_
    have hProduct : op.isMultiplicative = false := hPart op hSome
    have hSum : op.isAdditive = false := hOp op hSome
    rw [Operator.isMultiplicative, hSum] at hProduct
    cases hProduct

theorem spells_of_part {tier : Tier} {ts : List Token} {e : Expr} (h : Spells tier.part ts e) :
    Spells tier ts e := by
  cases tier with
  | operand => exact h
  | product => exact .single h
  | sum => exact .alone h

theorem spells_joined {tier : Tier} {ts us : List Token} {t : Token} {op : Operator} {a b : Expr}
    (hLeft : Spells tier ts a) (hOp : t.operator? = some op) (hJoins : tier.joins op = true)
    (hRight : Spells tier.part us b) : Spells tier (ts ++ t :: us) (.binary op a b) := by
  cases tier with
  | operand => cases hJoins
  | product => exact .times hLeft hOp hJoins hRight
  | sum => exact .plus hLeft hOp hJoins hRight

theorem height_le (tier : Tier) : tier.height ≤ 3 := by
  cases tier <;> decide

end Grammar.Tier

namespace Parser

open Grammar

namespace Descent

def passedNumber : Descent Expr := do
  let t ← previous
  match Number.read? t.lexeme with
  | some x => return .number x
  | none => throw (.malformedNumber t)

mutual
/-- Reads a phrase of a tier, with calls nested no deeper than granted. -/
def phrase : Nat → Tier → Descent Expr
  | 0, _ => fun _ => none
  | depth + 1, .operand => do
    if ← accept .identifier then return .name (← previous).lexeme
    else if ← accept .null then return .null
    else if ← accept .number then passedNumber
    else if ← accept .openParen then
      let e ← phrase depth .sum
      let _ ← expect .closeParen
      return e
    else throw (.unexpected (← current))
  | depth + 1, .product => do joined depth .product (← phrase depth .operand)
  | depth + 1, .sum => do joined depth .sum (← phrase depth .product)

/-- Goes on with a phrase of a tier for as long as operators of the tier follow. A turn counts as a call. -/
def joined : Nat → Tier → Expr → Descent Expr
  | 0, _, _ => fun _ => none
  | depth + 1, tier, left => do
    match ← acceptOperator tier.joins with
    | some op => joined depth tier (.binary op left (← phrase depth tier.part))
    | none => return left
end

/-- Reads statements up to a closing token and puts them in front of those read before. -/
def statements : Nat → List Expr → Descent (List Expr)
  | 0, _ => fun _ => none
  | depth + 1, done => do
    if (← current).kind = .endOfInput then return done
    else statements depth ((← phrase depth .sum) :: done)

/-- Reads a program; behind its closing token there must be nothing. -/
def program (depth : Nat) : Descent Program := do
  let done ← statements depth []
  let _ ← expect .endOfInput
  let c ← get
  match c.tokens[c.position]? with
  | some trailing => throw (.expected .endOfInput trailing)
  | none => return ⟨done.reverse⟩

/-- Where one reader has an outcome, the other one has the same. -/
def Extends {α : Type} (m m' : Descent α) : Prop :=
  ∀ c outcome, m c = some outcome → m' c = some outcome

namespace Extends

variable {α β : Type}

theorem refl (m : Descent α) : Extends m m := fun _ _ h => h

theorem bind {m m' : Descent α} {f f' : α → Descent β} (h : Extends m m')
    (hNext : ∀ a, Extends (f a) (f' a)) : Extends (m >>= f) (m' >>= f') := by
  intro c outcome hRun
  cases hFirst : m c with
  | none =>
    change (m c).bind _ = _ at hRun
    rw [hFirst] at hRun
    cases hRun
  | some first =>
    obtain ⟨result, c'⟩ := first
    have hFirst' := h c _ hFirst
    cases result with
    | error e =>
      rw [bind_of_error hFirst] at hRun
      rw [bind_of_error hFirst', hRun]
    | ok a =>
      rw [bind_of_ok hFirst] at hRun
      rw [bind_of_ok hFirst']
      exact hNext a c' outcome hRun

theorem ite {p : Prop} [Decidable p] {a a' b b' : Descent α} (h : Extends a a') (h' : Extends b b') :
    Extends (if p then a else b) (if p then a' else b') := by
  split
  · exact h
  · exact h'

end Extends

theorem extends_of_le {depth depth' : Nat} (h : depth ≤ depth') :
    (∀ tier, Extends (phrase depth tier) (phrase depth' tier)) ∧
      ∀ tier left, Extends (joined depth tier left) (joined depth' tier left) := by
  induction depth generalizing depth' with
  | zero =>
    constructor
    · intro tier c outcome hRun
      rw [phrase] at hRun
      cases hRun
    · intro tier left c outcome hRun
      rw [joined] at hRun
      cases hRun
  | succ depth ih =>
    obtain ⟨depth', rfl⟩ : ∃ n, depth' = n + 1 := ⟨depth' - 1, by omega⟩
    obtain ⟨hPhrase, hJoined⟩ := ih (Nat.le_of_succ_le_succ h)
    constructor
    · intro tier
      cases tier with
      | operand =>
        have hGroup := Extends.bind (hPhrase .sum) fun e => .refl (do
          let _ ← expect .closeParen
          return e)
        rw [phrase, phrase]
        exact .bind (.refl _) fun _ => .ite (.refl _) <| .bind (.refl _) fun _ => .ite (.refl _) <|
          .bind (.refl _) fun _ => .ite (.refl _) <| .bind (.refl _) fun _ => .ite hGroup (.refl _)
      | product | sum =>
        rw [phrase, phrase]
        exact .bind (hPhrase _) (hJoined _)
    · intro tier left
      rw [joined, joined]
      refine .bind (.refl _) fun found => ?_
      cases found with
      | some op => exact .bind (hPhrase _) fun right => hJoined _ _
      | none => exact .refl _

theorem extends_statements {depth depth' : Nat} (h : depth ≤ depth') (done : List Expr) :
    Extends (statements depth done) (statements depth' done) := by
  induction depth generalizing depth' done with
  | zero =>
    intro c outcome hRun
    cases hRun
  | succ depth ih =>
    obtain ⟨depth', rfl⟩ : ∃ n, depth' = n + 1 := ⟨depth' - 1, by omega⟩
    have hLe := Nat.le_of_succ_le_succ h
    exact .bind (.refl _) fun _ => .ite (.refl _) (.bind ((extends_of_le hLe).1 .sum) fun e => ih hLe _)

theorem extends_program {depth depth' : Nat} (h : depth ≤ depth') :
    Extends (program depth) (program depth') :=
  .bind (extends_statements h []) fun _ => .refl _

end Descent

/-- The parser, in front of a phrase of the tier, refuses the tokens with the error. -/
def Refuses (ts : List Token) (error : ParseError) : Tier → Prop
  | .operand => ∀ done level outer, State.run ts ⟨done, .before level outer⟩ = .error error
  | .product => ∀ done sum outer, State.run ts ⟨done, .before ⟨sum, none⟩ outer⟩ = .error error
  | .sum => ∀ done outer, State.run ts ⟨done, .before {} outer⟩ = .error error

variable {tier : Tier} {ts us : List Token} {t : Token} {e : Expr} {error : ParseError}

theorem refuses_of_part (h : Refuses ts error tier.part) : Refuses ts error tier := by
  cases tier with
  | operand => exact h
  | product => exact fun done sum outer => h done ⟨sum, none⟩ outer
  | sum => exact fun done outer => h done none outer

theorem operand_unexpected (hName : t.kind ≠ .identifier) (hNull : t.kind ≠ .null)
    (hNumber : t.kind ≠ .number) (hParen : t.kind ≠ .openParen) (level : Level) (outer : List Level) :
    operand t level outer = .error (.unexpected t) := by
  unfold operand
  split
  · next hKind => exact absurd hKind hName
  · next hKind => exact absurd hKind hNull
  · next hKind => exact absurd hKind hNumber
  · next hKind => exact absurd hKind hParen
  · rfl

theorem refuses_of_operand (h : ∀ level outer, operand t level outer = .error error)
    (rest : List Token) : Refuses (t :: rest) error .operand := by
  intro done level outer
  rw [State.run_cons]
  simp only [State.step, h]
  rfl

theorem refuses_joined {op : Operator} (hLeft : Spells tier ts e) (hOp : t.operator? = some op)
    (hJoins : tier.joins op = true) (h : Refuses us error tier.part) :
    Refuses (ts ++ t :: us) error tier := by
  cases tier with
  | operand => cases hJoins
  | product =>
    intro done sum outer
    obtain ⟨last, product, hRun, _⟩ := crosses_of_spells hLeft done sum outer
    rw [State.run_append_of_ok hRun, State.run_cons_of_ok (State.step_operator hOp done last _ outer)]
    exact h done _ outer
  | sum =>
    intro done outer
    obtain ⟨last, level, hRun, _⟩ := crosses_of_spells hLeft done outer
    have hPush : level.push last op = ⟨some ⟨level.closeSum last, op⟩, none⟩ := by
      have hAdditive : op.isAdditive = true := hJoins
      rw [Level.push, if_pos hAdditive]
    rw [State.run_append_of_ok hRun,
      State.run_cons_of_ok (State.step_operator hOp done last level outer), hPush]
    exact h done _ outer

theorem refuses_group {left : Token} (hLeft : left.kind = .openParen) (h : Refuses us error .sum) :
    Refuses (left :: us) error .operand := by
  intro done level outer
  rw [State.run_cons_of_ok (State.step_open hLeft done level outer)]
  exact h done (level :: outer)

theorem refuses_unclosed {left : Token} (hLeft : left.kind = .openParen) (h : Spells .sum ts e)
    (hStops : Tier.sum.Stops t) (hKind : t.kind ≠ .closeParen) :
    Refuses (left :: (ts ++ t :: us)) (.expected .closeParen t) .operand := by
  intro done level outer
  obtain ⟨last, level', hRun, _⟩ := crosses_of_spells h done (level :: outer)
  have hOp : t.operator? = none := hStops
  rw [State.run_cons_of_ok (State.step_open hLeft done level outer), State.run_append_of_ok hRun,
    State.run_cons]
  simp only [State.step, hOp, if_neg hKind]
  rfl

/-- What reading a phrase comes to: the tokens passed spell it and nothing goes on with it, or the parser
refuses the tokens ahead in the same way. -/
inductive Cursor.Reads (c : Cursor) (tier : Tier) : Except ParseError Expr → Cursor → Prop where
  | phrase {ts : List Token} {e : Expr} {c' : Cursor} : c.rest = ts ++ c'.rest → Spells tier ts e →
      (∀ t, c'.Sees t → tier.Stops t) → Reads c tier (.ok e) c'
  | refusal {error : ParseError} {c' : Cursor} : (c.rest ≠ [] → Refuses c.rest error tier) →
      Reads c tier (.error error) c'

theorem Cursor.Reads.lt {c c' : Cursor} (h : c.Reads tier (.ok e) c') (hSound : c.Sound)
    (hPasses : c.Passes c') : c.position < c'.position ∧ c'.position < c'.tokens.length := by
  cases h with
  | @phrase ts _ _ hRest hSpells _ =>
    have hNonempty : 0 < ts.length := List.length_pos_iff.mpr hSpells.ne_nil
    have hLength := congrArg List.length hRest
    have hAhead := hSound.rest_ne_nil (by simp [hRest, hSpells.ne_nil]) hPasses
    have hPositive := List.length_pos_iff.mpr hAhead
    have hTokens := congrArg List.length hPasses.tokens
    simp only [Cursor.rest, List.length_append, List.length_drop] at hLength hPositive
    omega

namespace Descent

/-- Reading that goes on at `c₁` comes to an end, no look misses, and the phrase begun at `c` is read or
refused. -/
def Completes (m : Descent Expr) (c₁ : Cursor) (tier : Tier) (c : Cursor) : Prop :=
  ∃ result c', m c₁ = some (result, c') ∧ c'.Sound ∧ c.Passes c' ∧ c.Reads tier result c'

variable {c c₁ : Cursor}

theorem completes_leaf {m : Descent Expr} {c' : Cursor} (hRun : m c₁ = some (.ok e, c')) (hSound : c'.Sound)
    (hTakes : c.Takes t c') (hSpells : Spells .operand [t] e) : Completes m c₁ .operand c := by
  have hOpen : t.isEnd = false := hSpells.forall_isEnd t List.mem_cons_self
  exact ⟨.ok e, c', hRun, hSound, hTakes.passes hOpen, .phrase hTakes.rest_eq hSpells fun _ _ => trivial⟩

theorem completes_passedNumber (hSound : c₁.Sound) (hTakes : c.Takes t c₁) (hKind : t.kind = .number) :
    Completes passedNumber c₁ .operand c := by
  obtain ⟨c₂, hPrevious, hSound₂, hTakes₂⟩ := previous_of_takes hSound hTakes
  rw [Completes, passedNumber, bind_of_ok hPrevious]
  cases hRead : Number.read? t.lexeme with
  | some x => exact completes_leaf rfl hSound₂ hTakes₂ (.number hKind hRead)
  | none =>
    have hOpen : t.isEnd = false := by simp [Token.isEnd, hKind]
    refine ⟨.error (.malformedNumber t), c₂, rfl, hSound₂, hTakes₂.passes hOpen, .refusal fun _ => ?_⟩
    rw [hTakes₂.rest_eq]
    apply refuses_of_operand
    intro level outer
    simp only [operand, hKind, hRead]

theorem completes_group {depth : Nat} (hSound : c₁.Sound) (hTakes : c.Takes t c₁)
    (hKind : t.kind = .openParen) (hSum : Completes (phrase depth .sum) c₁ .sum c₁)
    (hAhead : c₁.rest ≠ []) :
    Completes (do let e ← phrase depth .sum; let _ ← expect .closeParen; return e) c₁ .operand c := by
  have hOpen : t.isEnd = false := by simp [Token.isEnd, hKind]
  obtain ⟨result, c₂, hPhrase, hSound₂, hPasses₂, hReads⟩ := hSum
  have hPasses := (hTakes.passes hOpen).trans hPasses₂
  cases hReads with
  | @refusal error _ hRefuses =>
    refine ⟨.error error, c₂, bind_of_error hPhrase, hSound₂, hPasses, .refusal fun _ => ?_⟩
    rw [hTakes.rest_eq]
    exact refuses_group hKind (hRefuses hAhead)
  | @phrase ts e _ hRest hSpells hStops =>
    rw [Completes, bind_of_ok hPhrase]
    obtain ⟨right, hSees⟩ := hSound₂.exists_sees
    by_cases hRight : right.kind = .closeParen
    · have hHere := hSound₂.here_of_sees hSees (by simp [Token.isEnd, hRight])
      obtain ⟨c₃, hExpect, hSound₃, hTakes₃⟩ := expect_of_eq hSound₂ hHere hRight
      rw [bind_of_ok hExpect]
      refine ⟨.ok e, c₃, rfl, hSound₃, hPasses.trans (hTakes₃.passes (by simp [Token.isEnd, hRight])), ?_⟩
      refine .phrase ?_ (.group hKind hRight hSpells) fun _ _ => trivial
      rw [hTakes.rest_eq, hRest, hTakes₃.rest_eq]
      simp
    · obtain ⟨c₃, hExpect, hSound₃, hStays⟩ := expect_of_ne hSound₂ hSees hRight
      refine ⟨.error (.expected .closeParen right), c₃, bind_of_error hExpect, hSound₃,
        hPasses.trans hStays.passes, .refusal fun _ => ?_⟩
      obtain ⟨ahead, hAhead₂⟩ := hSees.exists_rest (hSound.rest_ne_nil hAhead hPasses₂)
      rw [hTakes.rest_eq, hRest, hAhead₂]
      exact refuses_unclosed hKind hSpells (hStops right hSees) hRight

theorem completes_operand {depth : Nat} (h : c.Sound)
    (hSum : ∀ c', c'.Sound → c'.rest.length < c.rest.length → Completes (phrase depth .sum) c' .sum c') :
    Completes (phrase (depth + 1) .operand) c .operand c := by
  obtain ⟨t, hSees⟩ := h.exists_sees
  rw [Completes, phrase]
  -- the kinds are tried one after the other, and every look is taken again
  rcases accept_cases .identifier (by decide) h hSees with
    ⟨hKind, c₁, hSound₁, hTakes₁, hRun⟩ | ⟨hName, c₁, hSound₁, hStays₁, hRun⟩
  · rw [hRun]
    obtain ⟨c₂, hPrevious, hSound₂, hTakes₂⟩ := previous_of_takes hSound₁ hTakes₁
    rw [bind_of_ok hPrevious]
    exact completes_leaf rfl hSound₂ hTakes₂ (.name hKind)
  rw [hRun]
  rcases accept_cases .null (by decide) hSound₁ (hStays₁.sees hSees) with
    ⟨hKind, c₂, hSound₂, hTakes, hRun⟩ | ⟨hNull, c₂, hSound₂, hStays₂, hRun⟩
  · rw [hRun]
    exact completes_leaf rfl hSound₂ (.of_stays hStays₁ hTakes) (.null hKind)
  rw [hRun]
  replace hStays₂ := hStays₁.trans hStays₂
  rcases accept_cases .number (by decide) hSound₂ (hStays₂.sees hSees) with
    ⟨hKind, c₃, hSound₃, hTakes, hRun⟩ | ⟨hNumber, c₃, hSound₃, hStays₃, hRun⟩
  · rw [hRun]
    exact completes_passedNumber hSound₃ (.of_stays hStays₂ hTakes) hKind
  rw [hRun]
  replace hStays₃ := hStays₂.trans hStays₃
  rcases accept_cases .openParen (by decide) hSound₃ (hStays₃.sees hSees) with
    ⟨hKind, c₄, hSound₄, hTakes, hRun⟩ | ⟨hParen, c₄, hSound₄, hStays₄, hRun⟩
  · rw [hRun]
    have hTakes₄ := Cursor.Takes.of_stays hStays₃ hTakes
    have hShorter : c₄.rest.length < c.rest.length := by simp [hTakes₄.rest_eq]
    have hAhead := h.rest_ne_nil (by simp [hTakes₄.rest_eq])
      (hTakes₄.passes (by simp [Token.isEnd, hKind]))
    exact completes_group hSound₄ hTakes₄ hKind (hSum c₄ hSound₄ hShorter) hAhead
  rw [hRun]
  replace hStays₄ := hStays₃.trans hStays₄
  obtain ⟨c₅, hCurrent, hSound₅, hStays₅⟩ := current_of_sees hSound₄ (hStays₄.sees hSees)
  replace hStays₅ := hStays₄.trans hStays₅
  rw [bind_of_ok hCurrent]
  refine ⟨.error (.unexpected t), c₅, rfl, hSound₅, hStays₅.passes, .refusal fun hAhead => ?_⟩
  obtain ⟨ts, hRest⟩ := hSees.exists_rest hAhead
  rw [hRest]
  exact refuses_of_operand (operand_unexpected hName hNull hNumber hParen) ts

/-- Every phrase is completed from a sound cursor, if the depth granted is not less than four for each token
ahead and the height of the tier. -/
def CompletesAt (depth : Nat) (tier : Tier) : Prop :=
  ∀ c : Cursor, c.Sound → 4 * c.rest.length + tier.height ≤ depth → Completes (phrase depth tier) c tier c

/-- The loop of a tier, begun at `c₀` and come to `c` with `left` read so far. -/
theorem completes_joined {depth : Nat} {c₀ : Cursor} {left : Expr} (h₀ : c₀.Sound)
    (hPart : ∀ depth' < depth, CompletesAt depth' tier.part)
    (h : c.Sound) (hPasses : c₀.Passes c) (hRest : c₀.rest = ts ++ c.rest)
    (hLeft : Spells tier ts left) (hStops : ∀ t, c.Sees t → tier.part.Stops t)
    (hDepth : 4 * c.rest.length < depth) : Completes (joined depth tier left) c tier c₀ := by
  induction depth generalizing c left ts with
  | zero => cases hDepth
  | succ depth ih =>
    obtain ⟨t, hSees⟩ := h.exists_sees
    rw [Completes, joined]
    by_cases hFollows : ∃ op, t.operator? = some op ∧ tier.joins op = true
    · obtain ⟨op, hOp, hJoins⟩ := hFollows
      obtain ⟨c₁, hAccept, hSound₁, hTakes⟩ := acceptOperator_of_some h hSees hOp hJoins
      have hShorter : c₁.rest.length + 1 = c.rest.length := by simp [hTakes.rest_eq]
      have hHeight := tier.part.height_le
      have hPasses₁ := hPasses.trans (hTakes.passes (operator?_isEnd hOp))
      obtain ⟨result, c₂, hPhrase, hSound₂, hPasses₂, hReads⟩ :=
        hPart depth (Nat.lt_succ_self depth) c₁ hSound₁ (by omega)
      rw [bind_of_ok hAccept]
      cases hReads with
      | @refusal error _ hRefuses =>
        refine ⟨.error error, c₂, bind_of_error hPhrase, hSound₂, hPasses₁.trans hPasses₂,
          .refusal fun hAhead => ?_⟩
        rw [hRest, hTakes.rest_eq]
        exact refuses_joined hLeft hOp hJoins (hRefuses (h₀.rest_ne_nil hAhead hPasses₁))
      | @phrase us right _ hRest₂ hRight hStops₂ =>
        have hLonger : c₂.rest.length ≤ c₁.rest.length := by simp [hRest₂]
        have hSplit : c₀.rest = (ts ++ t :: us) ++ c₂.rest := by
          rw [hRest, hTakes.rest_eq, hRest₂]
          simp
        obtain ⟨result, c₃, hJoined, hOutcome⟩ := ih (fun depth' hLess => hPart depth' (by omega)) hSound₂
          (hPasses₁.trans hPasses₂) hSplit (Tier.spells_joined hLeft hOp hJoins hRight) hStops₂ (by omega)
        refine ⟨result, c₃, ?_, hOutcome⟩
        exact (bind_of_ok hPhrase).trans hJoined
    · have hNone : ∀ op, t.operator? = some op → tier.joins op = false := by
        intro op hOp
        exact Bool.eq_false_iff.mpr fun hJoins => hFollows ⟨op, hOp, hJoins⟩
      obtain ⟨c₁, hAccept, hSound₁, hStays⟩ := acceptOperator_of_forall h hSees hNone
      rw [bind_of_ok hAccept]
      refine ⟨.ok left, c₁, rfl, hSound₁, hPasses.trans hStays.passes, .phrase ?_ hLeft ?_⟩
      · rw [hRest, hStays.rest_eq]
      · intro t' hSees'
        obtain rfl := (hStays.sees hSees).unique hSees'
        exact (hStops t hSees).joined hNone

theorem completes_tier {depth : Nat}
    (hTier : phrase (depth + 1) tier = phrase depth tier.part >>= joined depth tier)
    (hHeight : tier.part.height < tier.height)
    (hPart : ∀ depth' < depth + 1, CompletesAt depth' tier.part) : CompletesAt (depth + 1) tier := by
  intro c h hDepth
  obtain ⟨result, c₁, hPhrase, hSound₁, hPasses, hReads⟩ :=
    hPart depth (Nat.lt_succ_self depth) c h (by omega)
  rw [Completes, hTier]
  cases hReads with
  | @refusal error _ hRefuses =>
    exact ⟨.error error, c₁, bind_of_error hPhrase, hSound₁, hPasses,
      .refusal fun hAhead => refuses_of_part (hRefuses hAhead)⟩
  | @phrase ts e _ hRest hSpells hStops =>
    have hShorter : c₁.rest.length < c.rest.length := by
      simp [hRest, List.length_pos_iff.mpr hSpells.ne_nil]
    rw [bind_of_ok hPhrase]
    exact completes_joined h (fun depth' hLess => hPart depth' (by omega)) hSound₁ hPasses hRest
      (Tier.spells_of_part hSpells) hStops (by omega)

/-- From a sum the calls go down two tiers, and from an operand back to a sum only behind a parenthesis,
where the tokens ahead are fewer. -/
theorem completesAt (depth : Nat) (tier : Tier) : CompletesAt depth tier := by
  induction depth using Nat.strongRecOn generalizing tier with
  | ind depth ih =>
    cases depth with
    | zero =>
      intro c _ hDepth
      cases tier <;> simp [Tier.height] at hDepth
    | succ depth =>
      cases tier with
      | operand =>
        intro c h hDepth
        refine completes_operand h fun c' h' hShorter => ih depth (Nat.lt_succ_self depth) .sum c' h' ?_
        simp only [Tier.height] at hDepth ⊢
        omega
      | product =>
        exact completes_tier (phrase.eq_3 depth) (by decide) fun depth' hLess => ih depth' hLess .operand
      | sum =>
        exact completes_tier (phrase.eq_4 depth) (by decide) fun depth' hLess => ih depth' hLess .product

end Descent

/-- The state has finished the statements `done`, and the token in view is the first one behind them. -/
def Cursor.Awaits (c : Cursor) (s : State) (done : List Expr) : Prop :=
  ∀ t, c.Sees t → s.step t = State.begin done t

theorem Cursor.Awaits.run_eq {c : Cursor} {s : State} {done : List Expr} (h : c.Awaits s done)
    (hSees : c.Sees t) (hOpen : t.isEnd = false) (hAhead : c.rest ≠ []) :
    State.run c.rest s = State.run c.rest ⟨done, .before {} []⟩ := by
  obtain ⟨ts, hRest⟩ := hSees.exists_rest hAhead
  rw [hRest, State.run_cons, State.run_cons, h t hSees, State.begin]
  simp only [hOpen, State.step]
  rfl

/-- Behind a statement the parser awaits the next one. -/
theorem Cursor.Awaits.statement {c c' : Cursor} {s : State} {done : List Expr} (h : c.Awaits s done)
    (hSees : c.Sees t) (hOpen : t.isEnd = false) (hRest : c.rest = ts ++ c'.rest)
    (hSpells : Spells .sum ts e) (hStops : ∀ t, c'.Sees t → Tier.sum.Stops t) :
    ∃ s', State.run c.rest s = State.run c'.rest s' ∧ c'.Awaits s' (e :: done) := by
  obtain ⟨last, level, hRun, rfl⟩ := crosses_of_spells hSpells done []
  refine ⟨⟨done, .behind last level []⟩, ?_, ?_⟩
  · rw [h.run_eq hSees hOpen (by simp [hRest, hSpells.ne_nil]), hRest]
    exact State.run_append_of_ok hRun c'.rest
  · intro t' hSees'
    exact State.step_of_rests (.behind done last level) (hStops t' hSees')

/-- What reading statements comes to: a closing token in view, with the parser in a state that has finished
the same statements, or the same refusal. -/
inductive Cursor.ReadsAll (c : Cursor) (done : List Expr) :
    Except ParseError (List Expr) → Cursor → Prop where
  | closed {done' : List Expr} {c' : Cursor} {t : Token} : c'.Sees t → t.isEnd = true →
      (∀ s, c.Awaits s done → c.rest ≠ [] →
        ∃ s', State.run c.rest s = State.run c'.rest s' ∧ c'.Awaits s' done') →
      ReadsAll c done (.ok done') c'
  | refusal {error : ParseError} {c' : Cursor} :
      (∀ s, c.Awaits s done → c.rest ≠ [] → State.run c.rest s = .error error) →
      ReadsAll c done (.error error) c'

namespace Descent

theorem completes_statements {depth : Nat} {c : Cursor} (h : c.Sound) (done : List Expr)
    (hDepth : 4 * (c.rest.length + 1) ≤ depth) :
    ∃ result c', statements depth done c = some (result, c') ∧ c'.Sound ∧ c.Passes c' ∧
      c.ReadsAll done result c' := by
  induction depth generalizing c done with
  | zero => cases hDepth
  | succ depth ih =>
    obtain ⟨t, hSees⟩ := h.exists_sees
    obtain ⟨c₁, hCurrent, hSound₁, hStays⟩ := current_of_sees h hSees
    rw [statements, bind_of_ok hCurrent]
    by_cases hKind : t.kind = .endOfInput
    · rw [if_pos hKind]
      refine ⟨.ok done, c₁, rfl, hSound₁, hStays.passes,
        .closed (hStays.sees hSees) (by simp [Token.isEnd, hKind]) ?_⟩
      intro s hAwaits _
      refine ⟨s, by rw [hStays.rest_eq], ?_⟩
      intro t' hSees'
      obtain rfl := (hStays.sees hSees).unique hSees'
      exact hAwaits t hSees
    · have hOpen : t.isEnd = false := by simpa [Token.isEnd] using hKind
      rw [if_neg hKind]
      obtain ⟨result, c₂, hPhrase, hSound₂, hPasses₂, hReads⟩ := completesAt depth .sum c₁ hSound₁ (by
        rw [hStays.rest_eq, Tier.height]
        omega)
      have hPasses := hStays.passes.trans hPasses₂
      cases hReads with
      | @refusal error _ hRefuses =>
        refine ⟨.error error, c₂, bind_of_error hPhrase, hSound₂, hPasses, .refusal ?_⟩
        intro s hAwaits hAhead
        rw [hStays.rest_eq] at hRefuses
        rw [hAwaits.run_eq hSees hOpen hAhead]
        exact hRefuses hAhead done []
      | @phrase ts e _ hRest hSpells hStops =>
        rw [hStays.rest_eq] at hRest
        have hShorter : c₂.rest.length < c.rest.length := by
          simp [hRest, List.length_pos_iff.mpr hSpells.ne_nil]
        obtain ⟨result, c₃, hLater, hSound₃, hPasses₃, hReads⟩ := ih hSound₂ (e :: done) (by omega)
        refine ⟨result, c₃, (bind_of_ok hPhrase).trans hLater, hSound₃, hPasses.trans hPasses₃, ?_⟩
        cases hReads with
        | @closed done' _ t' hSees' hEnd hLast =>
          refine .closed hSees' hEnd fun s hAwaits hAhead => ?_
          obtain ⟨s₂, hRun₂, hAwaits₂⟩ := hAwaits.statement hSees hOpen hRest hSpells hStops
          obtain ⟨s₃, hRun₃, hAwaits₃⟩ := hLast s₂ hAwaits₂ (h.rest_ne_nil hAhead hPasses)
          exact ⟨s₃, hRun₂.trans hRun₃, hAwaits₃⟩
        | @refusal error _ hRefuses =>
          refine .refusal fun s hAwaits hAhead => ?_
          obtain ⟨s₂, hRun₂, hAwaits₂⟩ := hAwaits.statement hSees hOpen hRest hSpells hStops
          rw [hRun₂]
          exact hRefuses s₂ hAwaits₂ (h.rest_ne_nil hAhead hPasses)

end Descent

theorem Cursor.sound_ofTokens (tokens : List Token) : (ofTokens tokens).Sound where
  closed := by
    obtain ⟨front, last, hTokens, hEnd, _⟩ := exists_terminated tokens
    exact ⟨front, last, hTokens, hEnd⟩
  bounded := Nat.zero_le _
  inside look hLook := by cases hLook
  ordered := List.Pairwise.nil

theorem Cursor.ofTokens_rest (tokens : List Token) : (ofTokens tokens).rest = terminated tokens := rfl

namespace Descent

theorem exists_program {depth : Nat} (tokens : List Token)
    (hDepth : 4 * ((terminated tokens).length + 1) ≤ depth) :
    ∃ c, program depth (.ofTokens tokens) = some (Program.ofTokens tokens, c) ∧ c.Sound ∧
      c.tokens = terminated tokens := by
  have h := Cursor.sound_ofTokens tokens
  have hAhead : (Cursor.ofTokens tokens).rest ≠ [] := by
    obtain ⟨front, last, hTokens, _⟩ := exists_terminated tokens
    simp [Cursor.ofTokens_rest, hTokens]
  have hStart : (Cursor.ofTokens tokens).Awaits {} [] := fun _ _ => rfl
  obtain ⟨result, c₁, hStatements, hSound₁, hPasses, hReads⟩ := completes_statements h [] hDepth
  cases hReads with
  | @refusal error _ hRefuses =>
    have hRun : State.run (terminated tokens) {} = .error error := hRefuses {} hStart hAhead
    refine ⟨c₁, ?_, hSound₁, hPasses.tokens⟩
    rw [program, bind_of_error hStatements, Program.ofTokens, hRun]
    rfl
  | @closed done _ t hSees hEnd hLast =>
    have hKind : t.kind = .endOfInput := by simpa [Token.isEnd] using hEnd
    obtain ⟨s, hRun, hAwaits⟩ := hLast {} hStart hAhead
    obtain ⟨ts, hRest⟩ := hSees.exists_rest (h.rest_ne_nil hAhead hPasses)
    have hHere : c₁.tokens[c₁.position]? = some t := by
      rw [← List.head?_drop]
      exact congrArg List.head? hRest
    obtain ⟨c₂, hExpect, hSound₂, hTakes⟩ := expect_of_eq hSound₁ hHere hKind
    have hClosed : s.step t = .ok ⟨done, .closed⟩ := by rw [hAwaits t hSees, State.begin, if_pos hEnd]
    rw [hTakes.rest_eq, State.run_cons_of_ok hClosed, Cursor.ofTokens_rest] at hRun
    refine ⟨c₂, ?_, hSound₂, hTakes.tokens.trans hPasses.tokens⟩
    rw [program, bind_of_ok hStatements, bind_of_ok hExpect, Program.ofTokens, hRun]
    change (match c₂.tokens[c₂.position]? with | some _ => _ | none => _ : Descent Program) c₂ = _
    rw [← List.head?_drop, ← Cursor.rest]
    cases c₂.rest with
    | nil => rfl
    | cons trailing ts => rfl

end Descent

/-- Descent with a cursor is sound and reads as the parser does. For every row of tokens the cursor starts
out sound, and reading a program has an outcome, that of the parser, with the cursor sound to the end: the
row is closed, the cursor stays inside it and never goes back, and all looks find a token. From every sound
cursor a phrase of each tier is read to its end without passing a closing token, and if it is not refused,
at least one token is passed and one is left. Statements come to an end likewise, and the closing token
expected behind them is there. The depth of the calls is bounded by the tokens ahead, and whatever more is
granted does not change an outcome. -/
theorem descent_keeps_cursor_sound :
    (∀ tokens : List Token, (Cursor.ofTokens tokens).Sound ∧
      ∃ c, (∀ depth ≥ 4 * ((terminated tokens).length + 1),
          Descent.program depth (.ofTokens tokens) = some (Program.ofTokens tokens, c)) ∧
        c.Sound ∧ c.tokens = terminated tokens) ∧
    ∀ c : Cursor, c.Sound →
      (∀ tier, ∃ result c',
        (∀ depth ≥ 4 * (c.rest.length + 1), Descent.phrase depth tier c = some (result, c')) ∧
        c'.Sound ∧ c.Passes c' ∧
        ∀ e, result = .ok e → c.position < c'.position ∧ c'.position < c'.tokens.length) ∧
      ∀ done, ∃ result c',
        (∀ depth ≥ 4 * (c.rest.length + 1), Descent.statements depth done c = some (result, c')) ∧
        c'.Sound ∧ c.Passes c' ∧
        ∀ done', result = .ok done' →
          ∃ last c'', Descent.expect .endOfInput c' = some (.ok last, c'') ∧ c''.Sound := by
  constructor
  · intro tokens
    obtain ⟨c, hRun, hSound, hTokens⟩ := Descent.exists_program tokens (Nat.le_refl _)
    refine ⟨Cursor.sound_ofTokens tokens, c, fun depth hDepth => ?_, hSound, hTokens⟩
    exact Descent.extends_program hDepth _ _ hRun
  intro c hSound
  constructor
  · intro tier
    obtain ⟨result, c', hRun, hSound', hPasses, hReads⟩ :=
      Descent.completesAt (4 * (c.rest.length + 1)) tier c hSound (by
        have := tier.height_le
        omega)
    refine ⟨result, c', fun depth hDepth => ?_, hSound', hPasses, ?_⟩
    · exact (Descent.extends_of_le hDepth).1 tier _ _ hRun
    · rintro e rfl
      exact hReads.lt hSound hPasses
  · intro done
    obtain ⟨result, c', hRun, hSound', hPasses, hReads⟩ :=
      Descent.completes_statements hSound done (Nat.le_refl _)
    refine ⟨result, c', fun depth hDepth => ?_, hSound', hPasses, ?_⟩
    · exact Descent.extends_statements hDepth done _ _ hRun
    · rintro done' rfl
      cases hReads with
      | closed hSees hEnd _ => exact Descent.expect_of_isEnd hSound' hSees hEnd

end Parser
end Reckoner
