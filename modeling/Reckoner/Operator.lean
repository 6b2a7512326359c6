/-! # Binary operators

Five operators in two tiers: the additive ones bind weaker than the multiplicative ones.
-/
namespace Reckoner
set_option autoImplicit false

inductive Operator where
  | add
  | subtract
  | multiply
  | divide
  | remainder
deriving DecidableEq, Repr, Inhabited

namespace Operator

def symbol : Operator → String
  | add => "+"
  | subtract => "-"
  | multiply => "*"
  | divide => "/"
  | remainder => "%"

def ofSymbol? (text : String) : Option Operator :=
  if text = "+" then some add
  else if text = "-" then some subtract
  else if text = "*" then some multiply
  else if text = "/" then some divide
  else if text = "%" then some remainder
  else none

def isAdditive : Operator → Bool
  | add | subtract => true
  | multiply | divide | remainder => false

def isMultiplicative (op : Operator) : Bool := !op.isAdditive

@[simp] theorem ofSymbol?_symbol (op : Operator) : ofSymbol? op.symbol = some op := by
  cases op <;> simp [ofSymbol?, symbol]

theorem ofSymbol?_eq_some_iff (text : String) (op : Operator) :
    ofSymbol? text = some op ↔ text = op.symbol := by
  constructor
  · intro h
    unfold ofSymbol? at h
    split at h
    · cases h; assumption
    split at h
    · cases h; assumption
    split at h
    · cases h; assumption
    split at h
    · cases h; assumption
    split at h
    · cases h; assumption
    cases h
  · rintro rfl
    exact ofSymbol?_symbol op

end Operator
end Reckoner
