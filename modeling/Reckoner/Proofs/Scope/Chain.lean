import Reckoner.Scope

/-! # The chain of a frame

A frame sees itself and every frame further out. A name is found from a frame if and only if a frame
that it sees binds the name, and a name that is not found is reported as such.
-/
namespace Reckoner.Store
set_option autoImplicit false

/-- `s.Sees f g`: the frame `g` is `f` itself or further out. -/
inductive Sees (s : Store) : Nat → Nat → Prop where
  | here (f : Nat) : Sees s f f
  | outward {f p g : Nat} : s.parent? f = some p → Sees s p g → Sees s f g

/-- No frame that `f` sees binds the name. -/
def Unbound (s : Store) (f : Nat) (name : String) : Prop :=
  ∀ g, s.Sees f g → s.contains g name = false

theorem Sees.le {s : Store} {f g : Nat} (h : s.Sees f g) : g ≤ f := by
  induction h with
  | here f => exact Nat.le_refl f
  | outward hParent _ ih => exact Nat.le_trans ih (Nat.le_of_lt (s.parent?_lt hParent))

theorem sees_of_resolve? {s : Store} {f r : Nat} {name : String}
    (h : s.resolve? f name = some r) : s.Sees f r := by
  fun_induction s.resolve? f name with
  | case1 f _ =>
    obtain rfl : f = r := Option.some.inj h
    exact .here f
  | case2 => cases h
  | case3 f _ p hParent _ ih => exact .outward hParent (ih h)

theorem resolve?_ne_none_of_sees {s : Store} {f g : Nat} {name : String} (h : s.Sees f g)
    (hBinds : s.contains g name = true) : s.resolve? f name ≠ none := by
  induction h with
  | here f =>
    rw [resolve?_eq, if_pos hBinds]
    simp
  | outward hParent _ ih =>
    rw [resolve?_eq, hParent]
    split
    · simp
    · exact ih hBinds

theorem resolve?_eq_none_iff {s : Store} {f : Nat} {name : String} :
    s.resolve? f name = none ↔ s.Unbound f name := by
  constructor
  · intro h g hSees
    refine Bool.eq_false_iff.mpr fun hBinds => ?_
    exact resolve?_ne_none_of_sees hSees hBinds h
  · intro h
    refine Option.eq_none_iff_forall_ne_some.mpr fun r hResolve => ?_
    have hBinds := contains_of_resolve? hResolve
    rw [h r (sees_of_resolve? hResolve)] at hBinds
    cases hBinds

instance (s : Store) (f : Nat) (name : String) : Decidable (s.Unbound f name) :=
  decidable_of_iff (s.resolve? f name = none) resolve?_eq_none_iff

theorem get_of_unbound {s : Store} {f : Nat} {name : String} (h : s.Unbound f name) :
    s.get f name = .error (.undefined name) := by
  rw [get, resolve?_eq_none_iff.mpr h]
  rfl

theorem get_of_resolve? {s : Store} {f r : Nat} {name : String} {value : Value}
    (hResolve : s.resolve? f name = some r) (hFind : s.find? r name = some value) :
    s.get f name = .ok value := by
  rw [get, hResolve, Option.bind_some, hFind]

/-- The frame that decides does hold a value, so only an unbound name is not found. -/
theorem exists_get_of_not_unbound {s : Store} {f : Nat} {name : String} (h : ¬s.Unbound f name) :
    ∃ value, s.get f name = .ok value := by
  obtain ⟨r, hResolve⟩ := Option.ne_none_iff_exists'.mp fun hNone => h (resolve?_eq_none_iff.mp hNone)
  obtain ⟨value, hFind⟩ := Option.isSome_iff_exists.mp (contains_of_resolve? hResolve)
  exact ⟨value, get_of_resolve? hResolve hFind⟩

/-- Where a name leads depends on the parents and on which frames bind the name. -/
theorem resolve?_congr {s t : Store} {name : String} (hParent : ∀ f, t.parent? f = s.parent? f)
    (hBinds : ∀ f, t.contains f name = s.contains f name) (f : Nat) :
    t.resolve? f name = s.resolve? f name := by
  fun_induction s.resolve? f name with
  | case1 f hHere => rw [resolve?_eq, hBinds, if_pos hHere]
  | case2 f hNot hNone => rw [resolve?_eq, hBinds, if_neg hNot, hParent, hNone, Option.bind_none]
  | case3 f hNot p hOuter _ ih =>
    rw [resolve?_eq t, hBinds, if_neg hNot, hParent, hOuter, Option.bind_some, ih]

theorem get_congr {s t : Store} {f : Nat} {name : String}
    (hResolve : t.resolve? f name = s.resolve? f name)
    (hFind : ∀ r, s.resolve? f name = some r → t.find? r name = s.find? r name) :
    t.get f name = s.get f name := by
  rw [get, get, hResolve]
  cases hFrame : s.resolve? f name with
  | none => rfl
  | some r => rw [Option.bind_some, Option.bind_some, hFind r hFrame]

end Reckoner.Store
