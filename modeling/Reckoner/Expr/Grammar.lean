import Reckoner.Expr
import Reckoner.Number.Decimal
import Reckoner.Token

/-! # The grammar

Which sequences of tokens spell which expressions, stated without reference to how they are read.
Operators of one tier associate to the left, and parentheses leave no trace in the tree. A program is
any number of sums one behind the other.
-/
namespace Reckoner.Grammar
set_option autoImplicit false

/-- What binds closer stands further down. -/
inductive Tier where
  | sum
  | product
  | operand

/-- `Spells tier tokens e`: the tokens spell the expression `e` as a phrase of the tier. -/
inductive Spells : Tier → List Token → Expr → Prop where
  | name {t : Token} : t.kind = .identifier → Spells .operand [t] (.name t.lexeme)
  | null {t : Token} : t.kind = .null → Spells .operand [t] .null
  | number {t : Token} {x : Float} : t.kind = .number → Number.read? t.lexeme = some x →
      Spells .operand [t] (.number x)
  | group {left right : Token} {ts : List Token} {e : Expr} : left.kind = .openParen →
      right.kind = .closeParen → Spells .sum ts e → Spells .operand (left :: ts ++ [right]) e
  | single {ts : List Token} {e : Expr} : Spells .operand ts e → Spells .product ts e
  | times {ts us : List Token} {t : Token} {op : Operator} {a b : Expr} : Spells .product ts a →
      t.operator? = some op → op.isMultiplicative = true → Spells .operand us b →
      Spells .product (ts ++ t :: us) (.binary op a b)
  | alone {ts : List Token} {e : Expr} : Spells .product ts e → Spells .sum ts e
  | plus {ts us : List Token} {t : Token} {op : Operator} {a b : Expr} : Spells .sum ts a →
      t.operator? = some op → op.isAdditive = true → Spells .product us b →
      Spells .sum (ts ++ t :: us) (.binary op a b)

inductive SpellsAll : List Token → List Expr → Prop where
  | nil : SpellsAll [] []
  | cons {ts us : List Token} {e : Expr} {es : List Expr} : Spells .sum ts e → SpellsAll us es →
      SpellsAll (ts ++ us) (e :: es)

theorem Spells.ne_nil {tier : Tier} {ts : List Token} {e : Expr} (h : Spells tier ts e) : ts ≠ [] := by
  induction h with
  | single _ ih | alone _ ih => exact ih
  | _ => simp

theorem operator?_isEnd {t : Token} {op : Operator} (h : t.operator? = some op) : t.isEnd = false := by
  unfold Token.operator? at h
  split at h
  · rename_i hKind
    simp [Token.isEnd, hKind]
  · cases h

theorem Spells.forall_isEnd {tier : Tier} {ts : List Token} {e : Expr} (h : Spells tier ts e) :
    ∀ t ∈ ts, t.isEnd = false := by
  induction h with
  | name hKind | null hKind | number hKind _ => simp [Token.isEnd, hKind]
  | group hLeft hRight _ ih => simp_all [Token.isEnd, or_imp]
  | single _ ih | alone _ ih => exact ih
  | times _ hOp _ _ ihLeft ihRight | plus _ hOp _ _ ihLeft ihRight =>
    have := operator?_isEnd hOp
    simp_all [or_imp]

end Reckoner.Grammar
