import Reckoner.Proofs.Evaluation.Leaves
import Reckoner.Proofs.Parsing.Joining
import Reckoner.Proofs.Printing.RoundTrip

/-! # Operands in the place of leaves

The leaves of a parsed program are spelled by single tokens, in the same order. A sum in parentheses may
stand wherever such a token stands: the program is parsed as before, with the sum as a subtree in the
place of the leaf, and nothing around it is grouped in another way.
-/
namespace Reckoner
set_option autoImplicit false

open Grammar

mutual
/-- The tree with `new` in the place of the leaf that has `k` leaves before it. -/
def Expr.graft : Expr → Nat → Expr → Expr
  | .program body, k, new => .program (graftAll body k new)
  | .binary op left right, k, new =>
    if k < left.leaves.length then .binary op (left.graft k new) right
    else .binary op left (right.graft (k - left.leaves.length) new)
  | e, k, new => if k = 0 then new else e

def Expr.graftAll : List Expr → Nat → Expr → List Expr
  | [], _, _ => []
  | e :: rest, k, new =>
    if k < e.leaves.length then e.graft k new :: rest
    else e :: graftAll rest (k - e.leaves.length) new
end

/-- The leaf that a token spells on its own. -/
def Token.leaf? (t : Token) : Option Expr :=
  match t.kind with
  | .identifier => some (.name t.lexeme)
  | .null => some .null
  | .number => (Number.read? t.lexeme).map .number
  | _ => none

def Token.isLeaf (t : Token) : Bool := t.leaf?.isSome

theorem Token.leaf?_of_operator {t : Token} {op : Operator} (h : t.operator? = some op) :
    t.leaf? = none := by
  unfold operator? at h
  split at h
  · rename_i hKind
    rw [leaf?, hKind]
  · cases h

/-- A phrase has the leaves that its tokens spell. -/
theorem leaves_of_spells {tier : Tier} {ts : List Token} {e : Expr} (h : Spells tier ts e) :
    e.leaves = ts.filterMap Token.leaf? := by
  induction h with
  | name hKind => simp [Token.leaf?, hKind]
  | null hKind => simp [Token.leaf?, hKind, Expr.leaves]
  | number hKind hValue => simp [Token.leaf?, hKind, hValue, Expr.leaves]
  | group hLeft hRight _ ih => simp [Token.leaf?, hLeft, hRight, ih]
  | single _ ih | alone _ ih => exact ih
  | times _ hOp _ _ ihLeft ihRight | plus _ hOp _ _ ihLeft ihRight =>
    simp [Expr.leaves, Token.leaf?_of_operator hOp, ihLeft, ihRight]

theorem leavesAll_of_spellsAll {ts : List Token} {es : List Expr} (h : SpellsAll ts es) :
    Expr.leavesAll es = ts.filterMap Token.leaf? := by
  induction h with
  | nil => simp [Expr.leavesAll]
  | cons hHead _ ih => simp [Expr.leavesAll, leaves_of_spells hHead, ih]

theorem append_eq_append_cons {ts us front back : List Token} {t : Token}
    (h : ts ++ us = front ++ t :: back) :
    (∃ rest, ts = front ++ t :: rest ∧ back = rest ++ us) ∨
      ∃ rest, us = rest ++ t :: back ∧ front = ts ++ rest := by
  rcases List.append_eq_append_iff.mp h with ⟨rest, hFront, hUs⟩ | ⟨rest, hTs, hBack⟩
  · exact .inr ⟨rest, hUs, hFront⟩
  · cases rest with
    | nil =>
      rw [List.append_nil] at hTs
      exact .inr ⟨[], hBack.symm, by rw [hTs, List.append_nil]⟩
    | cons v rest =>
      obtain ⟨rfl, rfl⟩ := List.cons.inj hBack
      exact .inl ⟨rest, hTs, rfl⟩

theorem append_cons_eq_append_cons {ts us front back : List Token} {t u : Token}
    (h : ts ++ u :: us = front ++ t :: back) (hOther : u ≠ t) :
    (∃ rest, ts = front ++ t :: rest ∧ back = rest ++ u :: us) ∨
      ∃ rest, us = rest ++ t :: back ∧ front = ts ++ u :: rest := by
  rcases append_eq_append_cons h with hFirst | ⟨rest, hUs, hFront⟩
  · exact .inl hFirst
  · cases rest with
    | nil => exact absurd (List.cons.inj hUs).1 hOther
    | cons v rest =>
      obtain ⟨rfl, rfl⟩ := List.cons.inj hUs
      exact .inr ⟨rest, rfl, hFront⟩

section Graft

variable {t : Token} {leaf new : Expr} {phrase : List Token} (hLeaf : t.leaf? = some leaf)
  (hNew : Spells .operand phrase new)

/-- Wherever `t` stands among the tokens, the phrase may stand in its place. -/
def Admits (t : Token) (phrase : List Token) (new : Expr) (tier : Tier) (ts : List Token)
    (e : Expr) : Prop :=
  ∀ front back, ts = front ++ t :: back →
    Spells tier (front ++ (phrase ++ back)) (e.graft (front.filterMap Token.leaf?).length new)

include hNew in
theorem admits_leaf {u : Token} {e : Expr} (hGraft : e.graft 0 new = new) :
    Admits t phrase new .operand [u] e := by
  intro front back hTokens
  cases front with
  | nil =>
    obtain ⟨rfl, rfl⟩ := List.cons.inj hTokens
    simpa [hGraft] using hNew
  | cons v front =>
    obtain ⟨_, hNil⟩ := List.cons.inj hTokens
    simp at hNil

include hLeaf

theorem ne_of_leaf?_eq_none {u : Token} (h : u.leaf? = none) : u ≠ t := by
  rintro rfl
  rw [h] at hLeaf
  cases hLeaf

theorem admits_group {left right : Token} {ts : List Token} {e : Expr}
    (hLeft : left.kind = .openParen) (hRight : right.kind = .closeParen)
    (h : Admits t phrase new .sum ts e) : Admits t phrase new .operand (left :: ts ++ [right]) e := by
  intro front back hTokens
  have hOpen : left.leaf? = none := by rw [Token.leaf?, hLeft]
  have hClose : right.leaf? = none := by rw [Token.leaf?, hRight]
  rcases append_cons_eq_append_cons hTokens (ne_of_leaf?_eq_none hLeaf hClose) with
    ⟨rest, hInner, rfl⟩ | ⟨rest, hNil, _⟩
  · cases front with
    | nil =>
      obtain ⟨rfl, _⟩ := List.cons.inj hInner
      exact absurd rfl (ne_of_leaf?_eq_none hLeaf hOpen)
    | cons _ before =>
      obtain ⟨rfl, hInside⟩ := List.cons.inj hInner
      have hGroup := Spells.group hLeft hRight (h before rest hInside)
      simpa [hOpen] using hGroup
  · simp at hNil

/-- The leaves of an operation are those of its left operand and then those of its right one, so what
stands in the place of a leaf stands in one of the two operands. -/
theorem admits_binary {tier low high : Tier} {ts us : List Token} {u : Token} {op : Operator}
    {a b : Expr} (hOp : u.operator? = some op)
    (hJoin : ∀ {ts us a b}, Spells low ts a → Spells high us b →
      Spells tier (ts ++ u :: us) (.binary op a b))
    (ha : Spells low ts a) (hb : Spells high us b) (hLeft : Admits t phrase new low ts a)
    (hRight : Admits t phrase new high us b) :
    Admits t phrase new tier (ts ++ u :: us) (.binary op a b) := by
  intro front back hTokens
  have hMark := Token.leaf?_of_operator hOp
  rcases append_cons_eq_append_cons hTokens (ne_of_leaf?_eq_none hLeaf hMark) with
    ⟨rest, rfl, rfl⟩ | ⟨rest, rfl, rfl⟩
  · have hLess : (front.filterMap Token.leaf?).length < a.leaves.length := by
      simp [leaves_of_spells ha, hLeaf]
    rw [Expr.graft, if_pos hLess]
    simpa using hJoin (hLeft front rest rfl) hb
  · have hCount : ((ts ++ u :: rest).filterMap Token.leaf?).length =
        a.leaves.length + (rest.filterMap Token.leaf?).length := by
      simp [leaves_of_spells ha, hMark]
    rw [Expr.graft, if_neg (by omega), hCount, Nat.add_sub_cancel_left]
    simpa using hJoin ha (hRight rest back rfl)

include hNew

theorem Spells.admits {tier : Tier} {ts : List Token} {e : Expr} (h : Spells tier ts e) :
    Admits t phrase new tier ts e := by
  induction h with
  | name _ | null _ | number _ _ => exact admits_leaf hNew (by simp [Expr.graft])
  | group hOpen hClose _ ih => exact admits_group hLeaf hOpen hClose ih
  | single _ ih => exact fun front back hTokens => .single (ih front back hTokens)
  | alone _ ih => exact fun front back hTokens => .alone (ih front back hTokens)
  | times ha hOp hBinds hb ihLeft ihRight =>
    exact admits_binary hLeaf hOp (fun ha hb => .times ha hOp hBinds hb) ha hb ihLeft ihRight
  | plus ha hOp hBinds hb ihLeft ihRight =>
    exact admits_binary hLeaf hOp (fun ha hb => .plus ha hOp hBinds hb) ha hb ihLeft ihRight

theorem SpellsAll.graft {ts : List Token} {es : List Expr} (h : SpellsAll ts es)
    {front back : List Token} (hTokens : ts = front ++ t :: back) :
    SpellsAll (front ++ (phrase ++ back))
      (Expr.graftAll es (front.filterMap Token.leaf?).length new) := by
  induction h generalizing front with
  | nil => simp at hTokens
  | @cons ts us e es hHead hRest ih =>
    rcases append_eq_append_cons hTokens with ⟨rest, rfl, rfl⟩ | ⟨rest, rfl, rfl⟩
    · have hLess : (front.filterMap Token.leaf?).length < e.leaves.length := by
        simp [leaves_of_spells hHead, hLeaf]
      rw [Expr.graftAll, if_pos hLess]
      simpa using SpellsAll.cons (Spells.admits hLeaf hNew hHead front rest rfl) hRest
    · have hCount : ((ts ++ rest).filterMap Token.leaf?).length =
          e.leaves.length + (rest.filterMap Token.leaf?).length := by
        simp [leaves_of_spells hHead]
      rw [Expr.graftAll, if_neg (by omega), hCount, Nat.add_sub_cancel_left]
      simpa using SpellsAll.cons hHead (ih rfl)

end Graft

theorem spells_of_spellsAll_single {ts : List Token} {e : Expr} (h : SpellsAll ts [e]) :
    Spells .sum ts e := by
  cases h with
  | cons hHead hRest =>
    cases hRest
    rwa [List.append_nil]

theorem spells_of_ofTokens {ts : List Token} {e : Expr} (hEnds : ∀ t ∈ ts, t.isEnd = false)
    (h : Program.ofTokens ts = .ok ⟨[e]⟩) : Spells .sum ts e := by
  obtain ⟨us, _, hForm, hAll⟩ := Parser.spellsAll_of_ofTokens h
  rcases hForm with rfl | ⟨last, hLast, rfl⟩
  · exact spells_of_spellsAll_single hAll
  · rw [hEnds last (by simp)] at hLast
    cases hLast

theorem Token.isEnd_of_leaf? {t : Token} {leaf : Expr} (h : t.leaf? = some leaf) :
    t.isEnd = false := by
  unfold leaf? at h
  split at h <;> simp_all [isEnd]

theorem ofTokens_graft {front back phrase : List Token} {t : Token} {leaf new : Expr} {p : Program}
    (hLeaf : t.leaf? = some leaf) (hNew : Spells .operand phrase new)
    (h : Program.ofTokens (front ++ t :: back) = .ok p) :
    (Expr.leavesAll p.body)[(front.filterMap Token.leaf?).length]? = some leaf ∧
      Program.ofTokens (front ++ (phrase ++ back)) =
        .ok ⟨Expr.graftAll p.body (front.filterMap Token.leaf?).length new⟩ := by
  obtain ⟨ts, _, hForm, hAll⟩ := Parser.spellsAll_of_ofTokens h
  rcases hForm with rfl | ⟨last, hLast, hTokens⟩
  · have hGraft := SpellsAll.graft hLeaf hNew hAll rfl
    exact ⟨by simp [leavesAll_of_spellsAll hAll, hLeaf], (Parser.ofTokens_of_spellsAll hGraft).1⟩
  · -- the closing token is not the leaf, so it stands behind the tokens that follow the leaf
    have hOther : last ≠ t := by
      rintro rfl
      rw [Token.isEnd_of_leaf? hLeaf] at hLast
      cases hLast
    rcases append_cons_eq_append_cons hTokens.symm hOther with ⟨rest, rfl, rfl⟩ | ⟨rest, hNil, _⟩
    · have hGraft := SpellsAll.graft hLeaf hNew hAll rfl
      refine ⟨by simp [leavesAll_of_spellsAll hAll, hLeaf], ?_⟩
      simpa using (Parser.ofTokens_of_spellsAll hGraft).2 last hLast
    · simp at hNil

theorem HasWords.parenthesized {text : List Char} {words : List Word} (h : HasWords text words) :
    HasWords ('(' :: (text ++ [')'])) (⟨.openParen, ['(']⟩ :: (words ++ [⟨.closeParen, [')']⟩])) := by
  have hNothing : HasWords [] [] := ⟨[], [], cut_nil_iff.mpr ⟨rfl, by simp⟩, rfl⟩
  have hClose : HasWords [')'] [⟨.closeParen, [')']⟩] :=
    hNothing.cons_word (w := ⟨.closeParen, [')']⟩) rfl (Token.Kind.stops_nil _)
  have hInner : HasWords (text ++ [')']) (words ++ [⟨.closeParen, [')']⟩]) := by
    apply h.append_of_stops hClose
    intro kind
    exact (separated_cons rfl rfl []).stops kind
  exact hInner.cons_word (w := ⟨.openParen, ['(']⟩) rfl fun _ _ => rfl

theorem parse_parenthesized {source : String} {e : Expr} (h : Program.parse source = .ok ⟨[e]⟩) :
    Program.parse ("(" ++ source ++ ")") = .ok ⟨[e]⟩ := by
  obtain ⟨ts, hWords, hAll⟩ := parse_iff_hasWords.mp h
  let left : Token := ⟨.openParen, "(", .first, .first⟩
  let right : Token := ⟨.closeParen, ")", .first, .first⟩
  have hGroup : Spells .operand (left :: ts ++ [right]) e :=
    .group rfl rfl (spells_of_spellsAll_single hAll)
  refine parse_iff_hasWords.mpr ⟨_, ?_, Parser.spellsAll_single (.alone (.single hGroup))⟩
  simpa [Token.word, left, right] using hWords.parenthesized

/-- A sum in parentheses may stand in the place of any leaf, and parentheses around a whole statement
leave no trace. -/
theorem parenthesized_replaces_leaf :
    (∀ (front back inner : List Token) (t left right : Token) (leaf new : Expr) (p : Program),
      (∀ u ∈ inner, u.isEnd = false) → t.leaf? = some leaf →
      left.kind = .openParen → right.kind = .closeParen →
      Program.ofTokens (front ++ t :: back) = .ok p → Program.ofTokens inner = .ok ⟨[new]⟩ →
      (Expr.leavesAll p.body)[front.countP Token.isLeaf]? = some leaf ∧
        Program.ofTokens (front ++ (left :: inner ++ [right] ++ back)) =
          .ok ⟨Expr.graftAll p.body (front.countP Token.isLeaf) new⟩) ∧
    ∀ (source : String) (e : Expr) (n : Nat), Program.parse source = .ok ⟨[e]⟩ →
      Program.parse (String.ofList (List.replicate n '(') ++ source ++
        String.ofList (List.replicate n ')')) = .ok ⟨[e]⟩ := by
  constructor
  · intro front back inner t left right leaf new p hInner hLeaf hLeft hRight hWhole hNew
    have hGroup : Spells .operand (left :: inner ++ [right]) new :=
      .group hLeft hRight (spells_of_ofTokens hInner hNew)
    have hCount : front.countP Token.isLeaf = (front.filterMap Token.leaf?).length :=
      List.length_filterMap_eq_countP.symm
    rw [hCount]
    exact ofTokens_graft hLeaf hGroup hWhole
  · intro source e n h
    induction n with
    | zero => simpa using h
    | succ n ih =>
      have hMore := parse_parenthesized ih
      have hText : String.ofList (List.replicate (n + 1) '(') ++ source ++
          String.ofList (List.replicate (n + 1) ')') =
          "(" ++ (String.ofList (List.replicate n '(') ++ source ++
            String.ofList (List.replicate n ')')) ++ ")" := by
        rw [List.replicate_succ, List.replicate_succ', ← String.toList_inj]
        simp
      rw [hText, hMore]

/-- In `a * x + b` the difference `c - null` takes the place of `x` as a factor. -/
theorem parenthesized_replaces_leaf_factor :
    let word (kind : Token.Kind) (lexeme : String) : Token := ⟨kind, lexeme, .first, .first⟩
    let front := [word .identifier "a", word .operator "*"]
    let back := [word .operator "+", word .identifier "b"]
    let inner := [word .identifier "c", word .operator "-", word .null "null"]
    Program.ofTokens (front ++ word .identifier "x" :: back) =
        .ok ⟨[.binary .add (.binary .multiply (.name "a") (.name "x")) (.name "b")]⟩ ∧
      Program.ofTokens inner = .ok ⟨[.binary .subtract (.name "c") .null]⟩ ∧
      Program.ofTokens
          (front ++ (word .openParen "(" :: inner ++ [word .closeParen ")"] ++ back)) =
        .ok ⟨[.binary .add (.binary .multiply (.name "a") (.binary .subtract (.name "c") .null))
          (.name "b")]⟩ ∧
      Program.parse "a" = .ok ⟨[.name "a"]⟩ ∧ Program.parse "((a))" = .ok ⟨[.name "a"]⟩ := by
  intro word front back inner
  have hWhole : Program.ofTokens (front ++ word .identifier "x" :: back) =
      .ok ⟨[.binary .add (.binary .multiply (.name "a") (.name "x")) (.name "b")]⟩ := by cbv
  have hInner : Program.ofTokens inner = .ok ⟨[.binary .subtract (.name "c") .null]⟩ := by cbv
  have hSource : Program.parse "a" = .ok ⟨[.name "a"]⟩ := by cbv
  obtain ⟨hReplace, hWrap⟩ := parenthesized_replaces_leaf
  obtain ⟨_, hParse⟩ := hReplace front back inner (word .identifier "x") (word .openParen "(")
    (word .closeParen ")") (.name "x") _ _ (by decide) rfl rfl rfl hWhole hInner
  exact ⟨hWhole, hInner, hParse.trans (by cbv), hSource, hWrap "a" (.name "a") 2 hSource⟩

end Reckoner
