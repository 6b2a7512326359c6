import Reckoner.Proofs.Parsing.Joining

/-! # Where null comes from

A source is parsed as operations over names, numbers and null. Operators neither make a null of numbers
nor lose one, whatever becomes of the numbers, so a statement is null if and only if a null stands in it
somewhere. The value of a program is that of its last statement.
-/
namespace Reckoner
set_option autoImplicit false

open Grammar

/-- The literal, or a name whose value is null. -/
inductive Expr.NullLeaf (look : Lookup) : Expr → Prop where
  | literal : NullLeaf look .null
  | name {id : String} : look id = .ok .null → NullLeaf look (.name id)

/-- A null stands somewhere in the tree, at any depth. -/
def Expr.HoldsNull (look : Lookup) (e : Expr) : Prop := ∃ leaf ∈ e.preorder, leaf.NullLeaf look

theorem Expr.holdsNull_iff {look : Lookup} {e : Expr} :
    e.HoldsNull look ↔ e.NullLeaf look ∨ ∃ child ∈ e.children, child.HoldsNull look := by
  constructor
  · rintro ⟨leaf, hMem, hNull⟩
    rcases mem_preorder.mp hMem with rfl | ⟨child, hChild, hMem⟩
    · exact .inl hNull
    · exact .inr ⟨child, hChild, leaf, hMem, hNull⟩
  · rintro (hNull | ⟨child, hChild, leaf, hMem, hNull⟩)
    · exact ⟨e, mem_preorder.mpr (.inl rfl), hNull⟩
    · exact ⟨leaf, mem_preorder.mpr (.inr ⟨child, hChild, hMem⟩), hNull⟩

section Phrase

variable {look : Lookup}

theorem Expr.holdsNull_iff_of_leaf {e : Expr} (h : e.children = []) :
    e.HoldsNull look ↔ e.NullLeaf look := by
  rw [holdsNull_iff, h]
  simp

theorem Expr.holdsNull_binary_iff {op : Operator} {left right : Expr} :
    (binary op left right).HoldsNull look ↔ left.HoldsNull look ∨ right.HoldsNull look := by
  have hInner : ¬(binary op left right).NullLeaf look := by
    intro h
    cases h
  rw [holdsNull_iff]
  simp [hInner, children]

theorem Lookup.eval_eq_ok_iff {id : String} {v : Value} : look.eval id = .ok v ↔ look id = .ok v := by
  rw [Lookup.eval]
  cases look id <;> simp

/-- A phrase with a value has the value null if and only if a null stands in it. -/
theorem eq_null_iff_of_spells {tier : Tier} {ts : List Token} {e : Expr} (h : Spells tier ts e)
    {v : Value} (hv : e.eval look = .ok v) : v = .null ↔ e.HoldsNull look := by
  induction h generalizing v with
  | @name t _ =>
    rw [Expr.eval, Lookup.eval_eq_ok_iff] at hv
    rw [Expr.holdsNull_iff_of_leaf rfl]
    constructor
    · rintro rfl
      exact .name hv
    · rintro (_ | hNull)
      exact Except.ok.inj (hv.symm.trans hNull)
  | null _ =>
    rw [Expr.eval] at hv
    obtain rfl := Except.ok.inj hv
    rw [Expr.holdsNull_iff_of_leaf rfl]
    exact iff_of_true rfl .literal
  | number _ _ =>
    rw [Expr.eval] at hv
    obtain rfl := Except.ok.inj hv
    rw [Expr.holdsNull_iff_of_leaf rfl]
    exact iff_of_false nofun nofun
  | group _ _ _ ih | single _ ih | alone _ ih => exact ih hv
  | times _ _ _ _ ihLeft ihRight | plus _ _ _ _ ihLeft ihRight =>
    rw [Expr.eval_binary] at hv
    obtain ⟨a, hLeft, hRest⟩ := Parser.bind_eq_ok hv
    obtain ⟨b, hRight, hApply⟩ := Parser.bind_eq_ok hRest
    obtain rfl := Except.ok.inj hApply
    rw [Operator.apply_eq_null_iff, ihLeft hLeft, ihRight hRight, Expr.holdsNull_binary_iff]

theorem Expr.evalAll_concat (front : List Expr) (last : Expr) (v : Value) :
    evalAll look (front ++ [last]) v = (evalAll look front v).bind fun _ => last.eval look := by
  rw [evalAll_append]
  congr 1
  funext w
  rw [evalAll_cons]
  cases last.eval look <;> simp [Except.bind, evalAll]

theorem Expr.exists_evalAll {es : List Expr} (h : ∀ e ∈ es, ∃ v, e.eval look = .ok v) (v : Value) :
    ∃ w, evalAll look es v = .ok w := by
  induction es generalizing v with
  | nil => exact ⟨v, by rw [evalAll]⟩
  | cons e es ih =>
    obtain ⟨w, hw⟩ := h e List.mem_cons_self
    rw [evalAll_cons, hw]
    exact ih (fun other hOther => h other (List.mem_cons_of_mem e hOther)) w

end Phrase

theorem exists_spells_of_parse {source : String} {p : Program} (h : Program.parse source = .ok p)
    {e : Expr} (he : e ∈ p.body) : ∃ ts, Spells .sum ts e := by
  obtain ⟨tokens, _, hAll⟩ := Parser.exists_spellsAll_of_parse h
  obtain ⟨parts, hParts, _, hBody⟩ := Parser.exists_statements hAll
  rw [← hBody] at he
  obtain ⟨part, hPart, rfl⟩ := List.mem_map.mp he
  exact ⟨part.1, hParts part hPart⟩

/-- A source without statements is null. Otherwise its value, if it has one, is null if a null stands in
the last statement, and a number if not; and it is the same behind any other statements that have
values. -/
theorem evaluate_eq_null_iff_holdsNull {source : String} {p : Program}
    (hParse : Program.parse source = .ok p) {s : Store} {f : Nat} {v : Value}
    (hValue : (p.toExpr.evaluate (s.get f)).result = .ok v) :
    (p.body = [] → v = .null) ∧
    ∀ last, p.body.getLast? = some last →
      (v = .null ↔ last.HoldsNull (s.get f)) ∧
      ((∃ x, v = .number x) ↔ ¬last.HoldsNull (s.get f)) ∧
      ∀ others : List Expr, (∀ e ∈ others, ∃ w, (e.evaluate (s.get f)).result = .ok w) →
        ((Expr.program (others ++ [last])).evaluate (s.get f)).result = .ok v := by
  simp only [Program.toExpr, Expr.evaluate_eq, Expr.eval] at hValue ⊢
  constructor
  · intro hEmpty
    rw [hEmpty, Expr.evalAll] at hValue
    exact (Except.ok.inj hValue).symm
  · intro last hLast
    obtain ⟨front, hBody⟩ := List.getLast?_eq_some_iff.mp hLast
    rw [hBody, Expr.evalAll_concat] at hValue
    obtain ⟨_, _, hv⟩ := Parser.bind_eq_ok hValue
    obtain ⟨ts, hSpells⟩ := exists_spells_of_parse hParse (List.mem_of_getLast? hLast)
    have hNull : v = .null ↔ last.HoldsNull (s.get f) := eq_null_iff_of_spells hSpells hv
    refine ⟨hNull, ?_, ?_⟩
    · rw [← hNull]
      cases v <;> simp
    · intro others hOthers
      obtain ⟨w, hw⟩ := Expr.exists_evalAll hOthers .null
      rw [Expr.evalAll_concat, hw]
      exact hv

/-- A null deep in the last statement makes the value null, one in an earlier statement does not. -/
theorem evaluate_eq_null_iff_holdsNull_last :
    let s := ((Store.empty.push none).bind 0 "x" (.number 1)).bind 0 "y" .null
    Program.parse "x x * (x - y)" =
        .ok ⟨[.name "x", .binary .multiply (.name "x") (.binary .subtract (.name "x") (.name "y"))]⟩ ∧
      ((Expr.program [.name "x", .binary .multiply (.name "x")
        (.binary .subtract (.name "x") (.name "y"))]).evaluate (s.get 0)).result = .ok .null ∧
      (Expr.binary .multiply (.name "x") (.binary .subtract (.name "x") (.name "y"))).HoldsNull
        (s.get 0) ∧
      Program.parse "y x" = .ok ⟨[.name "y", .name "x"]⟩ ∧
      ((Expr.program [.name "y", .name "x"]).evaluate (s.get 0)).result = .ok (.number 1) ∧
      ¬(Expr.name "x").HoldsNull (s.get 0) := by
  intro s
  have hDeep : Program.parse "x x * (x - y)" = .ok ⟨[.name "x",
      .binary .multiply (.name "x") (.binary .subtract (.name "x") (.name "y"))]⟩ := by cbv
  have hDeepValue : ((Expr.program [.name "x", .binary .multiply (.name "x")
      (.binary .subtract (.name "x") (.name "y"))]).evaluate (s.get 0)).result = .ok .null := by cbv
  have hEarly : Program.parse "y x" = .ok ⟨[.name "y", .name "x"]⟩ := by cbv
  have hEarlyValue : ((Expr.program [.name "y", .name "x"]).evaluate (s.get 0)).result =
      .ok (.number 1) := by cbv
  obtain ⟨_, hLast⟩ := evaluate_eq_null_iff_holdsNull hDeep hDeepValue
  obtain ⟨_, hLast'⟩ := evaluate_eq_null_iff_holdsNull hEarly hEarlyValue
  obtain ⟨hNull, _⟩ := hLast _ rfl
  obtain ⟨_, hNumber, _⟩ := hLast' _ rfl
  exact ⟨hDeep, hDeepValue, hNull.mp rfl, hEarly, hEarlyValue, hNumber.mp ⟨1, rfl⟩⟩

end Reckoner
