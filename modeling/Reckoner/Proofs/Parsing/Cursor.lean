import Reckoner.Expr.Parser

/-! # Reading tokens with a cursor

A cursor stands in a row of tokens that a closing token ends. The readers here look at the token under the
cursor or at the one passed last, and move the cursor forward by one. Each of them keeps account of the
looks taken. A look can miss: there may be no token where it goes. From a sound cursor none does, and every
reader leaves the cursor sound.
-/
namespace Reckoner.Parser
set_option autoImplicit false

/-- A look at the token under the cursor, or at the one passed last. -/
inductive Look where
  | under (position : Nat)
  | passed (position : Nat)

namespace Look

/-- Where the cursor stands at the time. -/
def position : Look → Nat
  | under position => position
  | passed position => position

/-- The look finds a token in a row of so many. -/
def Inside (length : Nat) : Look → Prop
  | under position => 0 < length ∧ min position (length - 1) < length
  | passed position => 1 ≤ position ∧ position - 1 < length

end Look

/-- A row of tokens, how many of them have been passed, and the looks taken so far, newest first. -/
structure Cursor where
  tokens : List Token
  position : Nat := 0
  looks : List Look := []

/-- Reading with a cursor. There is no outcome when a look misses, or when calls nest deeper than granted; a
refusal leaves the cursor where it was met. -/
abbrev Descent (α : Type) := ExceptT ParseError (StateT Cursor Option) α

namespace Descent

def lookAt (look : Look) (index : Nat) : Descent Token := fun c =>
  c.tokens[index]?.map fun t => (.ok t, { c with looks := look :: c.looks })

/-- The token under the cursor. Behind the last token, that one stays in view. -/
def current : Descent Token := do
  let c ← get
  lookAt (.under c.position) (min c.position (c.tokens.length - 1))

/-- The token passed last. At the beginning there is none. -/
def previous : Descent Token := do
  let c ← get
  match c.position with
  | 0 => fun _ => none
  | index + 1 => lookAt (.passed c.position) index

def consume : Descent Token := do
  modify fun c => if c.position < c.tokens.length then { c with position := c.position + 1 } else c
  previous

def accept (kind : Token.Kind) : Descent Bool := do
  if (← current).kind = kind then
    let _ ← consume
    return true
  else return false

def expect (kind : Token.Kind) : Descent Token := do
  if (← current).kind = kind then consume
  else throw (.expected kind (← current))

def acceptOperator (joins : Operator → Bool) : Descent (Option Operator) := do
  if (← current).kind = .operator then
    match (Operator.ofSymbol? (← current).lexeme).filter joins with
    | some op =>
      let _ ← consume
      return some op
    | none => return none
  else return none

theorem bind_of_ok {α β : Type} {m : Descent α} {f : α → Descent β} {c c' : Cursor} {a : α}
    (h : m c = some (.ok a, c')) : (m >>= f) c = f a c' := by
  change (m c).bind _ = _
  rw [h]
  rfl

theorem bind_of_error {α β : Type} {m : Descent α} {f : α → Descent β} {c c' : Cursor}
    {e : ParseError} (h : m c = some (.error e, c')) : (m >>= f) c = some (.error e, c') := by
  change (m c).bind _ = _
  rw [h]
  rfl

end Descent

namespace Cursor

def ofTokens (tokens : List Token) : Cursor := { tokens := terminated tokens }

/-- The tokens from the cursor on. -/
def rest (c : Cursor) : List Token := c.tokens.drop c.position

/-- The row has a closing token at its end, the cursor has not left it, and no look has missed; from one
look to the next the cursor did not go back. -/
structure Sound (c : Cursor) : Prop where
  closed : ∃ front last, c.tokens = front ++ [last] ∧ last.isEnd = true
  bounded : c.position ≤ c.tokens.length
  inside : ∀ look ∈ c.looks, look.Inside c.tokens.length ∧ look.position ≤ c.position
  ordered : (c.looks.map Look.position).Pairwise (· ≥ ·)

/-- The token in view. -/
def Sees (c : Cursor) (t : Token) : Prop :=
  c.tokens[min c.position (c.tokens.length - 1)]? = some t

structure Stays (c c' : Cursor) : Prop where
  tokens : c'.tokens = c.tokens
  position : c'.position = c.position

structure Takes (c : Cursor) (t : Token) (c' : Cursor) : Prop where
  here : c.tokens[c.position]? = some t
  tokens : c'.tokens = c.tokens
  position : c'.position = c.position + 1

/-- From one cursor to the other the way leads forward over tokens, and no closing one is among them. -/
structure Passes (c c' : Cursor) : Prop where
  tokens : c'.tokens = c.tokens
  forward : c.position ≤ c'.position
  unclosed : ∀ i, c.position ≤ i → i < c'.position → ∃ t, c.tokens[i]? = some t ∧ t.isEnd = false

variable {c c' c'' : Cursor} {t : Token}

theorem Stays.trans (h : c.Stays c') (h' : c'.Stays c'') : c.Stays c'' :=
  ⟨h'.tokens.trans h.tokens, h'.position.trans h.position⟩

theorem Stays.sees (h : c.Stays c') (hSees : c.Sees t) : c'.Sees t := by
  rw [Sees, h.tokens, h.position]
  exact hSees

theorem Stays.rest_eq (h : c.Stays c') : c'.rest = c.rest := by
  rw [rest, rest, h.tokens, h.position]

theorem Stays.passes (h : c.Stays c') : c.Passes c' where
  tokens := h.tokens
  forward := Nat.le_of_eq h.position.symm
  unclosed i hFrom hTo := by
    have := h.position
    omega

theorem Takes.of_stays (h : c.Stays c') (h' : c'.Takes t c'') : c.Takes t c'' where
  here := by
    rw [← h.tokens, ← h.position]
    exact h'.here
  tokens := h'.tokens.trans h.tokens
  position := by rw [h'.position, h.position]

theorem Takes.stays (h : c.Takes t c') (h' : c'.Stays c'') : c.Takes t c'' where
  here := h.here
  tokens := h'.tokens.trans h.tokens
  position := h'.position.trans h.position

theorem Takes.rest_eq (h : c.Takes t c') : c.rest = t :: c'.rest := by
  obtain ⟨hLess, hHere⟩ := List.getElem?_eq_some_iff.mp h.here
  rw [rest, rest, h.tokens, h.position, List.drop_eq_getElem_cons hLess, hHere]

theorem Takes.passes (h : c.Takes t c') (hOpen : t.isEnd = false) : c.Passes c' where
  tokens := h.tokens
  forward := by
    have := h.position
    omega
  unclosed i hFrom hTo := by
    have := h.position
    obtain rfl : i = c.position := by omega
    exact ⟨t, h.here, hOpen⟩

theorem Passes.trans (h : c.Passes c') (h' : c'.Passes c'') : c.Passes c'' where
  tokens := h'.tokens.trans h.tokens
  forward := Nat.le_trans h.forward h'.forward
  unclosed i hFrom hTo := by
    rcases Nat.lt_or_ge i c'.position with hFirst | hSecond
    · exact h.unclosed i hFrom hFirst
    · rw [← h.tokens]
      exact h'.unclosed i hSecond hTo

theorem sees_of_here (hHere : c.tokens[c.position]? = some t) : c.Sees t := by
  obtain ⟨hLess, _⟩ := List.getElem?_eq_some_iff.mp hHere
  rw [Sees, Nat.min_eq_left (by omega), hHere]

theorem Sees.unique {t' : Token} (h : c.Sees t) (h' : c.Sees t') : t = t' :=
  Option.some.inj (h.symm.trans h')

theorem Sees.exists_rest (h : c.Sees t) (hRest : c.rest ≠ []) : ∃ ts, c.rest = t :: ts := by
  have hLess : c.position < c.tokens.length :=
    Nat.lt_of_not_le fun hLe => hRest (List.drop_eq_nil_iff.mpr hLe)
  rw [Sees, Nat.min_eq_left (by omega)] at h
  obtain ⟨_, hHere⟩ := List.getElem?_eq_some_iff.mp h
  exact ⟨_, by rw [rest, List.drop_eq_getElem_cons hLess, hHere]⟩

namespace Sound

theorem exists_sees (h : c.Sound) : ∃ t, c.Sees t := by
  obtain ⟨front, last, hTokens, _⟩ := h.closed
  have hLength : c.tokens.length = front.length + 1 := by simp [hTokens]
  have hLess : min c.position (c.tokens.length - 1) < c.tokens.length := by omega
  exact ⟨_, List.getElem?_eq_getElem hLess⟩

/-- What is in view stands under the cursor, or the cursor is behind the last token. -/
theorem sees_cases (h : c.Sound) (hSees : c.Sees t) :
    c.tokens[c.position]? = some t ∨ c.position = c.tokens.length ∧ t.isEnd = true := by
  obtain ⟨front, last, hTokens, hEnd⟩ := h.closed
  have hLength : c.tokens.length = front.length + 1 := by simp [hTokens]
  rcases Nat.lt_or_eq_of_le h.bounded with hLess | hBehind
  · left
    rwa [Sees, Nat.min_eq_left (by omega)] at hSees
  · right
    refine ⟨hBehind, ?_⟩
    rw [Sees, Nat.min_eq_right (by omega), hTokens] at hSees
    simp at hSees
    rwa [← hSees]

theorem here_of_sees (h : c.Sound) (hSees : c.Sees t) (hOpen : t.isEnd = false) :
    c.tokens[c.position]? = some t := by
  rcases h.sees_cases hSees with hHere | ⟨_, hEnd⟩
  · exact hHere
  · rw [hOpen] at hEnd
    cases hEnd

/-- As long as no closing token is passed, one is still ahead. -/
theorem rest_ne_nil (h : c.Sound) (hRest : c.rest ≠ []) (hPasses : c.Passes c') : c'.rest ≠ [] := by
  obtain ⟨front, last, hTokens, hEnd⟩ := h.closed
  have hLength : c.tokens.length = front.length + 1 := by simp [hTokens]
  intro hNil
  have hBehind : c.tokens.length ≤ c'.position := by
    rw [← hPasses.tokens]
    exact List.drop_eq_nil_iff.mp hNil
  have hBefore : c.position < c.tokens.length :=
    Nat.lt_of_not_le fun hLe => hRest (List.drop_eq_nil_iff.mpr hLe)
  obtain ⟨t, hLast, hOpen⟩ := hPasses.unclosed front.length (by omega) (by omega)
  rw [hTokens, List.getElem?_concat_length] at hLast
  obtain rfl := Option.some.inj hLast
  rw [hEnd] at hOpen
  cases hOpen

theorem look (h : c.Sound) {look : Look} (hInside : look.Inside c.tokens.length)
    (hPosition : look.position = c.position) : Sound { c with looks := look :: c.looks } where
  closed := h.closed
  bounded := h.bounded
  inside := by
    intro other hOther
    rcases List.mem_cons.mp hOther with rfl | hOther
    · exact ⟨hInside, Nat.le_of_eq hPosition⟩
    · exact h.inside other hOther
  ordered := by
    refine List.pairwise_cons.mpr ⟨?_, h.ordered⟩
    intro position hMem
    obtain ⟨other, hOther, rfl⟩ := List.mem_map.mp hMem
    rw [hPosition]
    exact (h.inside other hOther).2

theorem move (h : c.Sound) (hLess : c.position < c.tokens.length) :
    Sound { c with position := c.position + 1 } where
  closed := h.closed
  bounded := hLess
  inside look hLook := by
    obtain ⟨hInside, hBefore⟩ := h.inside look hLook
    exact ⟨hInside, Nat.le_succ_of_le hBefore⟩
  ordered := h.ordered

end Sound

end Cursor

namespace Descent

variable {c : Cursor} {t : Token}

theorem current_of_sees (h : c.Sound) (hSees : c.Sees t) :
    ∃ c', current c = some (.ok t, c') ∧ c'.Sound ∧ c.Stays c' := by
  have hFound : current c = some (.ok t, { c with looks := .under c.position :: c.looks }) := by
    change lookAt _ _ c = _
    rw [lookAt, hSees]
    rfl
  obtain ⟨hLess, _⟩ := List.getElem?_eq_some_iff.mp hSees
  exact ⟨_, hFound, h.look ⟨by omega, hLess⟩ rfl, rfl, rfl⟩

theorem previous_of_getElem? {index : Nat} (h : c.Sound) (hPosition : c.position = index + 1)
    (hToken : c.tokens[index]? = some t) :
    ∃ c', previous c = some (.ok t, c') ∧ c'.Sound ∧ c.Stays c' := by
  have hFound : previous c = some (.ok t, { c with looks := .passed c.position :: c.looks }) := by
    rcases c with ⟨tokens, position, looks⟩
    obtain rfl : position = index + 1 := hPosition
    change lookAt _ _ _ = _
    rw [lookAt, hToken]
    rfl
  obtain ⟨hLess, _⟩ := List.getElem?_eq_some_iff.mp hToken
  exact ⟨_, hFound, h.look ⟨by omega, by omega⟩ rfl, rfl, rfl⟩

theorem previous_of_takes {c' : Cursor} (h : c'.Sound) (hTakes : c.Takes t c') :
    ∃ c'', previous c' = some (.ok t, c'') ∧ c''.Sound ∧ c.Takes t c'' := by
  have hToken : c'.tokens[c.position]? = some t := by
    rw [hTakes.tokens]
    exact hTakes.here
  obtain ⟨c'', hPrevious, hSound, hStays⟩ := previous_of_getElem? h hTakes.position hToken
  exact ⟨c'', hPrevious, hSound, hTakes.stays hStays⟩

theorem consume_of_getElem? (h : c.Sound) (hHere : c.tokens[c.position]? = some t) :
    ∃ c', consume c = some (.ok t, c') ∧ c'.Sound ∧ c.Takes t c' := by
  obtain ⟨hLess, _⟩ := List.getElem?_eq_some_iff.mp hHere
  have hMove : consume c = previous { c with position := c.position + 1 } := by
    change previous (if c.position < c.tokens.length then _ else c) = _
    rw [if_pos hLess]
  rw [hMove]
  exact previous_of_takes (h.move hLess) ⟨hHere, rfl, rfl⟩

/-- A branch on whether a token is accepted goes one way or the other, with the cursor behind the token or
where it was. -/
theorem accept_cases (kind : Token.Kind) (hOpen : kind ≠ .endOfInput) (h : c.Sound)
    (hSees : c.Sees t) :
    (t.kind = kind ∧ ∃ c', c'.Sound ∧ c.Takes t c' ∧ ∀ {α : Type} (a b : Descent α),
      (accept kind >>= fun found => if found = true then a else b) c = a c') ∨
    (t.kind ≠ kind ∧ ∃ c', c'.Sound ∧ c.Stays c' ∧ ∀ {α : Type} (a b : Descent α),
      (accept kind >>= fun found => if found = true then a else b) c = b c') := by
  obtain ⟨c₁, hCurrent, hSound₁, hStays⟩ := current_of_sees h hSees
  by_cases hKind : t.kind = kind
  · have hEnd : t.isEnd = false := by simp [Token.isEnd, hKind, hOpen]
    obtain ⟨c₂, hConsume, hSound₂, hTakes⟩ :=
      consume_of_getElem? hSound₁ (hSound₁.here_of_sees (hStays.sees hSees) hEnd)
    have hAccept : accept kind c = some (.ok true, c₂) := by
      rw [accept, bind_of_ok hCurrent, if_pos hKind, bind_of_ok hConsume]
      rfl
    refine .inl ⟨hKind, c₂, hSound₂, .of_stays hStays hTakes, fun a b => ?_⟩
    rw [bind_of_ok hAccept, if_pos rfl]
  · have hAccept : accept kind c = some (.ok false, c₁) := by
      rw [accept, bind_of_ok hCurrent, if_neg hKind]
      rfl
    refine .inr ⟨hKind, c₁, hSound₁, hStays, fun a b => ?_⟩
    rw [bind_of_ok hAccept, if_neg Bool.false_ne_true]

theorem expect_of_eq {kind : Token.Kind} (h : c.Sound) (hHere : c.tokens[c.position]? = some t)
    (hKind : t.kind = kind) : ∃ c', expect kind c = some (.ok t, c') ∧ c'.Sound ∧ c.Takes t c' := by
  obtain ⟨c₁, hCurrent, hSound₁, hStays⟩ := current_of_sees h (Cursor.sees_of_here hHere)
  have hHere₁ : c₁.tokens[c₁.position]? = some t := by rwa [hStays.tokens, hStays.position]
  obtain ⟨c₂, hConsume, hSound₂, hTakes⟩ := consume_of_getElem? hSound₁ hHere₁
  refine ⟨c₂, ?_, hSound₂, .of_stays hStays hTakes⟩
  rw [expect, bind_of_ok hCurrent, if_pos hKind, hConsume]

theorem expect_of_ne {kind : Token.Kind} (h : c.Sound) (hSees : c.Sees t) (hKind : t.kind ≠ kind) :
    ∃ c', expect kind c = some (.error (.expected kind t), c') ∧ c'.Sound ∧ c.Stays c' := by
  obtain ⟨c₁, hCurrent₁, hSound₁, hStays₁⟩ := current_of_sees h hSees
  obtain ⟨c₂, hCurrent₂, hSound₂, hStays₂⟩ := current_of_sees hSound₁ (hStays₁.sees hSees)
  refine ⟨c₂, ?_, hSound₂, hStays₁.trans hStays₂⟩
  rw [expect, bind_of_ok hCurrent₁, if_neg hKind, bind_of_ok hCurrent₂]
  rfl

/-- A closing token in view is accepted, also when the cursor is behind it already. -/
theorem expect_of_isEnd (h : c.Sound) (hSees : c.Sees t) (hEnd : t.isEnd = true) :
    ∃ last c', expect .endOfInput c = some (.ok last, c') ∧ c'.Sound := by
  have hKind : t.kind = .endOfInput := by simpa [Token.isEnd] using hEnd
  rcases h.sees_cases hSees with hHere | ⟨hBehind, _⟩
  · obtain ⟨c', hExpect, hSound, _⟩ := expect_of_eq h hHere hKind
    exact ⟨t, c', hExpect, hSound⟩
  · obtain ⟨front, last, hTokens, _⟩ := h.closed
    obtain ⟨c₁, hCurrent, hSound₁, hStays⟩ := current_of_sees h hSees
    have hPosition : c₁.position = front.length + 1 := by
      rw [hStays.position, hBehind, hTokens, List.length_append, List.length_singleton]
    have hLast : c₁.tokens[front.length]? = some last := by
      rw [hStays.tokens, hTokens, List.getElem?_concat_length]
    obtain ⟨c₂, hPrevious, hSound₂, _⟩ := previous_of_getElem? hSound₁ hPosition hLast
    refine ⟨last, c₂, ?_, hSound₂⟩
    rw [expect, bind_of_ok hCurrent, if_pos hKind]
    change previous (if c₁.position < c₁.tokens.length then _ else c₁) = _
    rw [if_neg, hPrevious]
    rw [hStays.position, hStays.tokens, hBehind]
    exact Nat.lt_irrefl _

theorem acceptOperator_of_some {joins : Operator → Bool} {op : Operator} (h : c.Sound)
    (hSees : c.Sees t) (hOp : t.operator? = some op) (hJoins : joins op = true) :
    ∃ c', acceptOperator joins c = some (.ok (some op), c') ∧ c'.Sound ∧ c.Takes t c' := by
  have hKind : t.kind = .operator := by
    by_cases hKind : t.kind = .operator
    · exact hKind
    · rw [Token.operator?, if_neg hKind] at hOp
      cases hOp
  have hOpen : t.isEnd = false := by simp [Token.isEnd, hKind]
  rw [Token.operator?, if_pos hKind] at hOp
  have hFilter : (Operator.ofSymbol? t.lexeme).filter joins = some op :=
    Option.filter_eq_some_iff.mpr ⟨hOp, hJoins⟩
  obtain ⟨c₁, hCurrent₁, hSound₁, hStays₁⟩ := current_of_sees h hSees
  obtain ⟨c₂, hCurrent₂, hSound₂, hStays₂⟩ := current_of_sees hSound₁ (hStays₁.sees hSees)
  have hStays := hStays₁.trans hStays₂
  obtain ⟨c₃, hConsume, hSound₃, hTakes⟩ :=
    consume_of_getElem? hSound₂ (hSound₂.here_of_sees (hStays.sees hSees) hOpen)
  refine ⟨c₃, ?_, hSound₃, .of_stays hStays hTakes⟩
  rw [acceptOperator, bind_of_ok hCurrent₁, if_pos hKind, bind_of_ok hCurrent₂, hFilter]
  change (consume >>= _) c₂ = _
  rw [bind_of_ok hConsume]
  rfl

theorem acceptOperator_of_forall {joins : Operator → Bool} (h : c.Sound) (hSees : c.Sees t)
    (hOp : ∀ op, t.operator? = some op → joins op = false) :
    ∃ c', acceptOperator joins c = some (.ok none, c') ∧ c'.Sound ∧ c.Stays c' := by
  obtain ⟨c₁, hCurrent₁, hSound₁, hStays₁⟩ := current_of_sees h hSees
  by_cases hKind : t.kind = .operator
  · rw [Token.operator?, if_pos hKind] at hOp
    have hFilter : (Operator.ofSymbol? t.lexeme).filter joins = none :=
      Option.filter_eq_none_iff.mpr fun op hSome => by simp [hOp op hSome]
    obtain ⟨c₂, hCurrent₂, hSound₂, hStays₂⟩ := current_of_sees hSound₁ (hStays₁.sees hSees)
    refine ⟨c₂, ?_, hSound₂, hStays₁.trans hStays₂⟩
    rw [acceptOperator, bind_of_ok hCurrent₁, if_pos hKind, bind_of_ok hCurrent₂, hFilter]
    rfl
  · refine ⟨c₁, ?_, hSound₁, hStays₁⟩
    rw [acceptOperator, bind_of_ok hCurrent₁, if_neg hKind]
    rfl

end Descent
end Reckoner.Parser
