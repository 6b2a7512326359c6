import Reckoner.Proofs.Scope.Writing

/-! # Substitution

To put an expression in the place of a name is to evaluate with the name bound to the value of that
expression. The binding may be made in a new frame inside the one at hand: it hides whatever the outer
frames bind the name to, every other name leads outwards as before, and the outer frames see nothing of
it.
-/
namespace Reckoner
set_option autoImplicit false

mutual
/-- The expression with `a` in the place of every name `id`, inside reserved forms as well. -/
def Expr.subst (e : Expr) (id : String) (a : Expr) : Expr :=
  match e with
  | .program body => .program (substAll body id a)
  | .name other => if other = id then a else .name other
  | .binary op left right => .binary op (left.subst id a) (right.subst id a)
  | .declare target value => .declare target (value.subst id a)
  | .call callee arguments => .call (callee.subst id a) (substAll arguments id a)
  | .unary op operand => .unary op (operand.subst id a)
  | .function target parameters body => .function target parameters (substAll body id a)
  | .number _ | .text _ | .null => e

def Expr.substAll (es : List Expr) (id : String) (a : Expr) : List Expr :=
  match es with
  | [] => []
  | e :: rest => e.subst id a :: substAll rest id a
end

/-- Looking up where one name is bound to a value and all others are found as before. -/
def Lookup.hide (look : Lookup) (id : String) (value : Value) : Lookup :=
  fun other => if other = id then .ok value else look other

section Eval

variable {look : Lookup} {id : String} {a : Expr} {value : Value}

mutual
theorem Expr.eval_subst (h : a.eval look = .ok value) (e : Expr) :
    (e.subst id a).eval look = e.eval (look.hide id value) := by
  cases e with
  | program body =>
    rw [subst, eval, eval]
    exact evalAll_substAll h body .null
  | name other =>
    rw [subst, eval, Lookup.eval, Lookup.hide]
    split
    · exact h
    · rw [eval, Lookup.eval]
  | binary op left right =>
    rw [subst, eval_binary, eval_binary, eval_subst h left, eval_subst h right]
  | number _ | null | text _ => rw [subst, eval, eval]
  | declare _ _ | call _ _ | unary _ _ | function _ _ _ =>
    -- a reserved form keeps its kind, which is all that its failure tells
    rw [subst, eval, eval]
    rfl

theorem Expr.evalAll_substAll (h : a.eval look = .ok value) (body : List Expr) (last : Value) :
    evalAll look (substAll body id a) last = evalAll (look.hide id value) body last := by
  cases body with
  | nil => rw [substAll, evalAll, evalAll]
  | cons e rest =>
    rw [substAll, evalAll_cons, evalAll_cons, eval_subst h e]
    congr 1
    funext v
    exact evalAll_substAll h rest v
end

end Eval

namespace Store

variable {s : Store} {f g : Nat} {name : String}

theorem contains_push (parent : Option Nat) : (s.push parent).contains g name = s.contains g name := by
  rw [contains, find?_push, contains]

theorem contains_push_size (parent : Option Nat) : (s.push parent).contains s.size name = false := by
  rw [contains_push, Bool.eq_false_iff]
  intro hBinds
  exact Nat.lt_irrefl s.size (lt_size_of_contains hBinds)

/-- A new frame is not seen from the old ones. -/
theorem resolve?_push (parent : Option Nat) (hg : g < s.size) :
    (s.push parent).resolve? g name = s.resolve? g name := by
  have hParent : ∀ {g}, g < s.size → (s.push parent).parent? g = s.parent? g := by
    intro g hLess
    rw [parent?_push, if_neg (by omega)]
  fun_induction s.resolve? g name with
  | case1 g hBinds => rw [resolve?_eq, contains_push, if_pos hBinds]
  | case2 g hNot hNone => rw [resolve?_eq, contains_push, if_neg hNot, hParent hg, hNone, Option.bind_none]
  | case3 g hNot p hOuter hLess ih =>
    rw [resolve?_eq, contains_push, if_neg hNot, hParent hg, hOuter, Option.bind_some]
    exact ih (by omega)

theorem get_push (parent : Option Nat) (hg : g < s.size) :
    (s.push parent).get g name = s.get g name :=
  get_congr (resolve?_push parent hg) fun r _ => find?_push s parent r name

/-- A new frame binds nothing, so every name is found from its parent. -/
theorem get_push_child (hFrame : f < s.size) : (s.push (some f)).get s.size name = s.get f name := by
  have hParent : (s.push (some f)).parent? s.size = some f := by
    simp [parent?_push, hFrame]
  have hResolve : (s.push (some f)).resolve? s.size name = s.resolve? f name := by
    rw [resolve?_eq, contains_push_size, hParent, ← resolve?_push (some f) hFrame]
    rfl
  rw [get, get, hResolve]
  simp only [find?_push]

section Child

variable {id : String} {value : Value}

/-- From a child of `f` that binds one name, this name has its value and all others are those of `f`. -/
theorem get_bind_child (hFrame : f < s.size) :
    ((s.push (some f)).bind s.size id value).get s.size = Lookup.hide (s.get f) id value := by
  have hChild : s.size < (s.push (some f)).size := by simp
  funext name
  rw [Lookup.hide]
  split
  · rename_i hSame
    subst hSame
    apply get_of_resolve? (resolve?_bind_of_seesThrough hChild (seesThrough_self _ name s.size))
    rw [find?_bind _ _ _ _ _ _ hChild, if_pos ⟨rfl, rfl⟩]
  · rename_i hOther
    have hAgree : Agree name ((s.push (some f)).bind s.size id value) (s.push (some f)) :=
      (Agree.refl name _).bind_other (Ne.symm hOther) s.size value
    rw [hAgree.get_eq, get_push_child hFrame]

/-- What is bound in a new frame is not seen from the old ones. -/
theorem get_bind_push (parent : Option Nat) (hg : g < s.size) :
    ((s.push parent).bind s.size id value).get g = s.get g := by
  have hChild : s.size < (s.push parent).size := by simp
  funext name
  rw [← get_push parent hg]
  by_cases hSame : name = id
  · subst hSame
    apply get_bind_of_not_seesThrough hChild (contains_push_size parent)
    intro hThrough
    have hLe := hThrough.sees.le
    omega
  · exact ((Agree.refl name _).bind_other (Ne.symm hSame) s.size value).get_eq g

end Child
end Store

/-- An expression with another one in the place of a name comes to the same, with a value or with a
failure, as the expression itself in a new child frame that binds the name to the value of the other.
Whatever the outer frames bind the name to plays no part, and they see nothing of the new binding. -/
theorem evaluate_subst_eq_child {s : Store} {f : Nat} (hFrame : f < s.size) {a : Expr} {value : Value}
    (hValue : (a.evaluate (s.get f)).result = .ok value) (id : String) (e : Expr) :
    let child := (s.newChild f).1
    ∃ t, (s.newChild f).2.define child id value = .ok t ∧ t.parent? child = some f ∧
      ((e.subst id a).evaluate (s.get f)).result = (e.evaluate (t.get child)).result ∧
      ∀ g, g < s.size → t.get g = s.get g := by
  intro child
  rw [Expr.evaluate_eq] at hValue
  refine ⟨(s.push (some f)).bind s.size id value, ?_, ?_, ?_, ?_⟩
  · simp [child, Store.newChild, Store.define, Store.contains_push_size]
  · simp [child, Store.newChild, Store.parent?_push, hFrame]
  · rw [Expr.evaluate_eq, Expr.evaluate_eq]
    have hChild : ((s.push (some f)).bind s.size id value).get child =
        Lookup.hide (s.get f) id value := Store.get_bind_child hFrame
    rw [hChild]
    exact Expr.eval_subst hValue e
  · intro g hg
    exact Store.get_bind_push (some f) hg

/-- The outer frame binds the name to a number, but the expression in its place is null; a failure is the
same on both ways. -/
theorem evaluate_subst_eq_child_hidden :
    let s := (Store.empty.push none).bind 0 "x" (.number 1)
    let a : Expr := .binary .add .null (.name "x")
    0 < s.size ∧ (a.evaluate (s.get 0)).result = .ok .null ∧
      ∃ t, (s.newChild 0).2.define 1 "x" .null = .ok t ∧
        (a.evaluate (s.get 0)).result = ((Expr.name "x").evaluate (t.get 1)).result ∧
        ((Expr.binary .add a (.name "y")).evaluate (s.get 0)).result =
          ((Expr.binary .add (.name "x") (.name "y")).evaluate (t.get 1)).result ∧
        t.get 0 = s.get 0 := by
  intro s a
  have hFrame : 0 < s.size := by decide +kernel
  have hValue : (a.evaluate (s.get 0)).result = .ok .null := by cbv
  obtain ⟨t, hDefine, _, hName, hOuter⟩ := evaluate_subst_eq_child hFrame hValue "x" (.name "x")
  obtain ⟨t', hDefine', _, hSum, _⟩ :=
    evaluate_subst_eq_child hFrame hValue "x" (.binary .add (.name "x") (.name "y"))
  obtain rfl := Except.ok.inj (hDefine.symm.trans hDefine')
  exact ⟨hFrame, hValue, t, hDefine, hName, hSum, hOuter 0 hFrame⟩

end Reckoner
