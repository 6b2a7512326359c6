import Reckoner.Proofs.Scope.Independence

/-! # What a write changes

A write binds one name in one frame, and other frames notice as far as they look into that frame. An
assignment goes to a frame that binds the name already: every name leads where it led before, and the
new value is seen by those frames alone whose look ends there. A definition makes a binding where there
was none, and so it catches the looks that used to pass through its frame. A write that fails changes
nothing.
-/
namespace Reckoner.Store
set_option autoImplicit false

variable {s : Store} {f g r : Nat} {name : String} {value : Value}

theorem resolve_eq_ok_iff : s.resolve f name = .ok r ↔ s.resolve? f name = some r := by
  rw [resolve]
  cases s.resolve? f name <;> simp

theorem resolve_congr {t : Store} {other : String} (h : t.resolve? g other = s.resolve? g other) :
    t.resolve g other = s.resolve g other := by
  rw [resolve, resolve, h]

theorem contains_bind_iff (hFrame : f < s.size) (g : Nat) (other : String) :
    (s.bind f name value).contains g other = true ↔
      (g = f ∧ other = name) ∨ s.contains g other = true := by
  rw [contains, find?_bind s f g name other value hFrame, contains]
  split <;> simp_all

theorem contains_bind_of_contains (h : s.contains r name = true) (g : Nat) (other : String) :
    (s.bind r name value).contains g other = s.contains g other := by
  rw [Bool.eq_iff_iff, contains_bind_iff (lt_size_of_contains h)]
  constructor
  · rintro (⟨rfl, rfl⟩ | hBinds)
    · exact h
    · exact hBinds
  · exact .inr

theorem resolve?_bind_of_contains (h : s.contains r name = true) (g : Nat) (other : String) :
    (s.bind r name value).resolve? g other = s.resolve? g other :=
  resolve?_congr (fun g => parent?_bind s r g name value)
    (fun g => contains_bind_of_contains h g other) g

/-- Another value in a frame that binds the name is seen from where the name leads to that frame. -/
theorem get_bind_of_contains (h : s.contains r name = true) (g : Nat) (other : String) :
    (s.bind r name value).get g other =
      if other = name ∧ s.resolve g name = .ok r then .ok value else s.get g other := by
  have hFind := fun q => find?_bind s r q name other value (lt_size_of_contains h)
  have hResolve : (s.bind r name value).resolve? g other = s.resolve? g other :=
    resolve?_bind_of_contains h g other
  split
  · rename_i hSeen
    obtain ⟨rfl, hLeads⟩ := hSeen
    apply get_of_resolve? (hResolve.trans (resolve_eq_ok_iff.mp hLeads))
    rw [hFind, if_pos ⟨rfl, rfl⟩]
  · rename_i hUnseen
    apply get_congr hResolve
    intro q hLeads
    rw [hFind, if_neg]
    rintro ⟨rfl, rfl⟩
    exact hUnseen ⟨rfl, resolve_eq_ok_iff.mpr hLeads⟩

/-- `s.SeesThrough name g f`: the frame `f` is `g` itself or further out, and none of the frames from `g`
up to `f`, without `f`, binds the name. -/
structure SeesThrough (s : Store) (name : String) (g f : Nat) : Prop where
  sees : s.Sees g f
  clear : ∀ h, s.Sees g h → s.Sees h f → h ≠ f → s.contains h name = false

theorem seesThrough_self (s : Store) (name : String) (f : Nat) : s.SeesThrough name f f := by
  refine ⟨.here f, ?_⟩
  intro h hOut hBack hOther
  have hLe := hOut.le
  have hGe := hBack.le
  omega

theorem SeesThrough.inward {p : Nat} (h : s.SeesThrough name p f) (hParent : s.parent? g = some p)
    (hFree : s.contains g name = false) : s.SeesThrough name g f := by
  refine ⟨.outward hParent h.sees, ?_⟩
  intro q hOut hBack hOther
  cases hOut with
  | here => exact hFree
  | outward hOuter hRest =>
    obtain rfl := Option.some.inj (hParent.symm.trans hOuter)
    exact h.clear q hRest hBack hOther

section Define

variable (hFrame : f < s.size)
include hFrame

theorem contains_bind_eq_false (hFree : s.contains g name = false) (hOther : g ≠ f) :
    (s.bind f name value).contains g name = false := by
  rw [Bool.eq_false_iff, ne_eq, contains_bind_iff hFrame]
  simp [hFree, hOther]

/-- A new binding is found by a look that reaches its frame. -/
theorem resolve?_bind_of_seesThrough (h : s.SeesThrough name g f) :
    (s.bind f name value).resolve? g name = some f := by
  obtain ⟨hSees, hClear⟩ := h
  induction hSees with
  | here f =>
    have hBinds : (s.bind f name value).contains f name = true :=
      (contains_bind_iff hFrame f name).mpr (.inl ⟨rfl, rfl⟩)
    rw [resolve?_eq, if_pos hBinds]
  | @outward g p f hParent hRest ih =>
    have hOther : g ≠ f := by
      have hLess := s.parent?_lt hParent
      have hLe := hRest.le
      omega
    have hFree : s.contains g name = false :=
      hClear g (.here g) (.outward hParent hRest) hOther
    rw [resolve?_eq, contains_bind_eq_false hFrame hFree hOther, parent?_bind, hParent]
    exact ih hFrame fun q hOut => hClear q (.outward hParent hOut)

/-- A look that ends before the frame of a new binding, or does not come there, ends where it did. -/
theorem resolve?_bind_of_not_seesThrough (h : ¬s.SeesThrough name g f) :
    (s.bind f name value).resolve? g name = s.resolve? g name := by
  have hOther : ∀ {g}, ¬s.SeesThrough name g f → g ≠ f := by
    rintro g hNot rfl
    exact hNot (seesThrough_self s name g)
  fun_induction s.resolve? g name with
  | case1 g hBinds =>
    have hStill : (s.bind f name value).contains g name = true :=
      (contains_bind_iff hFrame g name).mpr (.inr hBinds)
    rw [resolve?_eq, if_pos hStill]
  | case2 g hNot hNone =>
    have hFree : s.contains g name = false := Bool.eq_false_iff.mpr hNot
    rw [resolve?_eq, contains_bind_eq_false hFrame hFree (hOther h), parent?_bind, hNone]
    rfl
  | case3 g hNot p hParent _ ih =>
    have hFree : s.contains g name = false := Bool.eq_false_iff.mpr hNot
    rw [resolve?_eq, contains_bind_eq_false hFrame hFree (hOther h), parent?_bind, hParent]
    exact ih fun hThrough => h (hThrough.inward hParent hFree)

theorem get_bind_of_not_seesThrough (hFree : s.contains f name = false)
    (h : ¬s.SeesThrough name g f) : (s.bind f name value).get g name = s.get g name := by
  apply get_congr (resolve?_bind_of_not_seesThrough hFrame h)
  intro r hLeads
  rw [find?_bind s f r name name value hFrame, if_neg]
  rintro ⟨rfl, _⟩
  rw [contains_of_resolve? hLeads] at hFree
  cases hFree

end Define

/-- Looking up a name, assigning to it and asking for its frame all lead to the nearest frame that binds
it, or else fail alike. An assignment leaves it where every name leads from every frame, and changes the
value of its own name for the frames from which this name leads to the same frame. -/
theorem assign_changes_nearest_binding (s : Store) (f : Nat) (name : String) (value : Value) :
    ((∃ r old s', s.resolve f name = .ok r ∧ s.get f name = .ok old ∧
        s.assign f name value = .ok s') ∨
      (s.resolve f name = .error (.undefined name) ∧ s.get f name = .error (.undefined name) ∧
        s.assign f name value = .error (.undefined name))) ∧
    ∀ r, s.resolve f name = .ok r →
      s.Nearest (fun g => s.contains g name = true) f r ∧
      (∃ old, s.find? r name = some old ∧ s.get f name = .ok old) ∧
      ∃ s', s.assign f name value = .ok s' ∧ s.perform (.assign f name value) = (.value value, s') ∧
        ∀ g other, s'.contains g other = s.contains g other ∧ s'.parent? g = s.parent? g ∧
          s'.resolve g other = s.resolve g other ∧
          s'.get g other =
            if other = name ∧ s.resolve g name = .ok r then .ok value else s.get g other := by
  constructor
  · cases hResolve : s.resolve? f name with
    | none =>
      right
      exact ⟨by rw [resolve, hResolve], get_of_unbound (resolve?_eq_none_iff.mp hResolve),
        by rw [assign, hResolve]⟩
    | some r =>
      left
      obtain ⟨old, hFind⟩ := Option.isSome_iff_exists.mp (contains_of_resolve? hResolve)
      exact ⟨r, old, _, resolve_eq_ok_iff.mpr hResolve, get_of_resolve? hResolve hFind,
        by rw [assign, hResolve]⟩
  · intro r hLeads
    have hResolve : s.resolve? f name = some r := resolve_eq_ok_iff.mp hLeads
    have hBinds := contains_of_resolve? hResolve
    obtain ⟨old, hFind⟩ := Option.isSome_iff_exists.mp hBinds
    have hAssign : s.assign f name value = .ok (s.bind r name value) := by rw [assign, hResolve]
    refine ⟨resolve?_eq_some_iff.mp hResolve, ⟨old, hFind, get_of_resolve? hResolve hFind⟩, _,
      hAssign, ?_, ?_⟩
    · rw [perform, hAssign, written]
    · intro g other
      exact ⟨contains_bind_of_contains hBinds g other, parent?_bind s r g name value,
        resolve_congr (resolve?_bind_of_contains hBinds g other), get_bind_of_contains hBinds g other⟩

/-- Of two branches below a frame, the one that hides the name does not see the assignment made in the
other. -/
theorem assign_changes_nearest_binding_branches :
    let s := behind [.global, .define 0 "x" .null, .child 0 2, .child 0 1, .define 3 "x" .null]
    s.resolve 2 "x" = .ok 0 ∧ s.resolve 3 "x" = .ok 3 ∧
      ∃ s', s.assign 2 "x" (.number 1) = .ok s' ∧ s'.get 1 "x" = .ok (.number 1) ∧
        s'.get 3 "x" = .ok .null ∧ s'.resolve 1 "x" = .ok 0 := by
  intro s
  have hNear : s.resolve 2 "x" = .ok 0 := by decide +kernel
  have hAbove : s.resolve 1 "x" = .ok 0 := by decide +kernel
  have hHidden : s.resolve 3 "x" = .ok 3 := by decide +kernel
  have hOld : s.get 3 "x" = .ok .null := by decide +kernel
  obtain ⟨_, hEffect⟩ := assign_changes_nearest_binding s 2 "x" (.number 1)
  obtain ⟨_, _, s', hAssign, _, hFrames⟩ := hEffect 0 hNear
  obtain ⟨_, _, hLeads, hSeen⟩ := hFrames 1 "x"
  obtain ⟨_, _, _, hUnseen⟩ := hFrames 3 "x"
  rw [if_pos ⟨rfl, hAbove⟩] at hSeen
  rw [if_neg (by simp [hHidden]), hOld] at hUnseen
  exact ⟨hNear, hHidden, s', hAssign, hSeen, hUnseen, hLeads.trans hAbove⟩

/-- A definition fails if and only if its own frame binds the name already. Otherwise the name leads to
the new binding from the frames that see through to its frame, and from all others where it led before;
no other name and no parent is concerned. A write that fails leaves the store as it was. -/
theorem define_catches_looks_through {s : Store} {f : Nat} (hFrame : f < s.size) (name : String)
    (value : Value) :
    (∀ e, s.define f name value = .error e ↔ s.contains f name = true ∧ e = .duplicate name) ∧
    (∀ s', s.define f name value = .ok s' →
      s.perform (.define f name value) = (.value value, s') ∧
      (∀ g, s.SeesThrough name g f → s'.resolve g name = .ok f ∧ s'.get g name = .ok value) ∧
      (∀ g, ¬s.SeesThrough name g f →
        s'.resolve g name = s.resolve g name ∧ s'.get g name = s.get g name) ∧
      (∀ g other, other ≠ name → s'.find? g other = s.find? g other ∧
        s'.resolve g other = s.resolve g other ∧ s'.get g other = s.get g other) ∧
      ∀ g, s'.parent? g = s.parent? g) ∧
    ∀ g other w e,
      (s.define g other w = .error e →
        s.perform (.define g other w) = (.failed (.eval (.scope e)), s)) ∧
      (s.assign g other w = .error e →
        s.perform (.assign g other w) = (.failed (.eval (.scope e)), s)) := by
  refine ⟨?_, ?_, ?_⟩
  · intro e
    rw [define]
    constructor
    · intro hError
      split at hError
      · rename_i hTaken
        exact ⟨hTaken, (Except.error.inj hError).symm⟩
      · cases hError
    · rintro ⟨hTaken, rfl⟩
      rw [if_pos hTaken]
  · intro s' hDefine
    have hReply : s.perform (.define f name value) = (.value value, s') := by
      rw [perform, hDefine, written]
    rw [define] at hDefine
    split at hDefine
    · cases hDefine
    rename_i hNot
    obtain rfl := Except.ok.inj hDefine
    have hFree : s.contains f name = false := Bool.eq_false_iff.mpr hNot
    refine ⟨hReply, ?_, ?_, ?_, ?_⟩
    · intro g hThrough
      have hResolve : (s.bind f name value).resolve? g name = some f :=
        resolve?_bind_of_seesThrough hFrame hThrough
      refine ⟨resolve_eq_ok_iff.mpr hResolve, get_of_resolve? hResolve ?_⟩
      rw [find?_bind s f f name name value hFrame, if_pos ⟨rfl, rfl⟩]
    · intro g hNotThrough
      exact ⟨resolve_congr (resolve?_bind_of_not_seesThrough hFrame hNotThrough),
        get_bind_of_not_seesThrough hFrame hFree hNotThrough⟩
    · intro g other hOther
      have hAgree : Agree other (s.bind f name value) s :=
        (Agree.refl other s).bind_other hOther.symm f value
      exact ⟨hAgree.find?_eq g, resolve_congr (hAgree.resolve?_eq g), hAgree.get_eq g⟩
    · intro g
      exact parent?_bind s f g name value
  · intro g other w e
    constructor
    · intro hError
      rw [perform, hError, written]
    · intro hError
      rw [perform, hError, written]

/-- A definition in a middle frame is seen from below it, but not past a frame that hides it, and not
from above. -/
theorem define_catches_looks_through_middle :
    let s := behind [.global, .define 0 "x" .null, .child 0 2, .child 1 1, .define 3 "x" .null]
    1 < s.size ∧ s.resolve 2 "x" = .ok 0 ∧
      ∃ s', s.define 1 "x" (.number 1) = .ok s' ∧ s'.resolve 2 "x" = .ok 1 ∧
        s'.get 2 "x" = .ok (.number 1) ∧ s'.resolve 3 "x" = .ok 3 ∧ s'.resolve 0 "x" = .ok 0 := by
  intro s
  have hFrame : 1 < s.size := by decide +kernel
  have hFree : s.contains 1 "x" = false := by decide +kernel
  have hBelow : s.SeesThrough "x" 2 1 :=
    (seesThrough_self s "x" 1).inward (by decide +kernel) (by decide +kernel)
  have hHidden : ¬s.SeesThrough "x" 3 1 := by
    intro hThrough
    have hClear := hThrough.clear 3 (.here 3) hThrough.sees (by decide)
    exact absurd hClear (by decide +kernel)
  have hAbove : ¬s.SeesThrough "x" 0 1 := by
    intro hThrough
    exact absurd hThrough.sees.le (by decide)
  obtain ⟨hFails, hEffect, _⟩ := define_catches_looks_through hFrame "x" (.number 1)
  cases hDefine : s.define 1 "x" (.number 1) with
  | error e =>
    rw [((hFails e).mp hDefine).1] at hFree
    cases hFree
  | ok s' =>
    obtain ⟨_, hThrough, hPast, _⟩ := hEffect s' hDefine
    obtain ⟨hLeads, hValue⟩ := hThrough 2 hBelow
    refine ⟨hFrame, by decide +kernel, s', rfl, hLeads, hValue, ?_, ?_⟩
    · rw [(hPast 3 hHidden).1]
      decide +kernel
    · rw [(hPast 0 hAbove).1]
      decide +kernel

end Reckoner.Store
