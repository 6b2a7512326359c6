import Mathlib.Logic.Relation
import Reckoner.Proofs.Scope.Writing

/-! # The frames further out

Commands add frames and bindings and take nothing away: a frame keeps the parent that it was made with,
which was there before it, and keeps every name that it binds. So the way outwards from a frame leads
through older and older frames, comes to an end, and does not come back to where it began. What a search
along this way finds does bind the name.
-/
namespace Reckoner.Store
set_option autoImplicit false

theorem size_newChain (count parent : Nat) (s : Store) :
    (newChain count parent s).2.size = s.size + count := by
  induction count generalizing parent s with
  | zero => rfl
  | succ count ih =>
    rw [newChain, newChild, ih, size_push]
    omega

theorem size_le_perform (s : Store) (c : Command) : s.size ≤ (s.perform c).2.size := by
  cases c with
  | global =>
    refine Nat.le_trans ?_ (Nat.le_of_eq (size_push s none).symm)
    omega
  | child parent count =>
    refine Nat.le_trans ?_ (Nat.le_of_eq (size_newChain count parent s).symm)
    omega
  | define f name value =>
    simp only [perform, Store.define]
    split
    · exact Nat.le_refl _
    · exact Nat.le_of_eq (size_bind s f name value).symm
  | assign f name value =>
    simp only [perform, Store.assign]
    split
    · rename_i r _
      exact Nat.le_of_eq (size_bind s r name value).symm
    · exact Nat.le_refl _
  | resolve f name =>
    simp only [perform]
    split <;> exact Nat.le_refl _
  | evaluateText f source =>
    simp only [perform]
    split <;> exact Nat.le_refl _
  | get _ _ | contains _ _ | parent _ | evaluate _ _ => exact Nat.le_refl _

theorem size_le_behind (before after : List Command) :
    (behind before).size ≤ (behind (before ++ after)).size := by
  induction after using List.reverseRecOn with
  | nil => exact Nat.le_of_eq (by rw [List.append_nil])
  | append_singleton after c ih =>
    rw [← List.append_assoc, behind_concat]
    exact Nat.le_trans ih (size_le_perform _ c)

/-- `s.Makes c f p`: the command makes the frame `f` of the store below the frame `p`. This is the frame
that the command names, or the one that it has made just before. -/
inductive Makes (s : Store) : Command → Nat → Nat → Prop where
  | first {parent count : Nat} : parent < s.size → 0 < count →
      Makes s (.child parent count) s.size parent
  | next {parent count p : Nat} : s.size ≤ p → p + 1 < s.size + count →
      Makes s (.child parent count) (p + 1) p

theorem parent?_of_size_le {s : Store} {f : Nat} (h : s.size ≤ f) : s.parent? f = none := by
  rw [parent?, Array.getElem?_eq_none h, Option.bind_none]

theorem parent?_newChain_iff {count parent : Nat} {s : Store} {f p : Nat} :
    (newChain count parent s).2.parent? f = some p ↔
      s.parent? f = some p ∨ s.Makes (.child parent count) f p := by
  induction count generalizing parent s with
  | zero =>
    refine ⟨.inl, ?_⟩
    rintro (hParent | hMakes)
    · exact hParent
    · cases hMakes <;> omega
  | succ count ih =>
    rw [newChain, newChild, ih, parent?_push]
    constructor
    · rintro (hParent | hMakes)
      · split at hParent
        · rename_i hLast
          obtain ⟨hSome, hThere⟩ := Option.filter_eq_some_iff.mp hParent
          obtain rfl := Option.some.inj hSome
          subst hLast
          exact .inr (.first (of_decide_eq_true hThere) (by omega))
        · exact .inl hParent
      · cases hMakes with
        | first =>
          rw [size_push]
          exact .inr (.next (Nat.le_refl _) (by omega))
        | next hNew hLess =>
          rw [size_push] at hNew hLess
          exact .inr (.next (by omega) (by omega))
    · rintro (hParent | hMakes)
      · left
        rw [if_neg, hParent]
        rintro rfl
        rw [parent?_of_size_le (Nat.le_refl _)] at hParent
        cases hParent
      · cases hMakes with
        | first hThere => simp [hThere]
        | next hNew hLess =>
          right
          rcases Nat.eq_or_lt_of_le hNew with hFirst | hLater
          · subst hFirst
            rw [← size_push s (some parent)]
            exact .first (by rw [size_push]; omega) (by omega)
          · exact .next (by rw [size_push]; omega) (by rw [size_push]; omega)

theorem parent?_perform_of_ne {s : Store} {c : Command} (h : ∀ parent count, c ≠ .child parent count)
    (f : Nat) : (s.perform c).2.parent? f = s.parent? f := by
  cases c with
  | global =>
    refine (parent?_push s none f).trans ?_
    split
    · rename_i hLast
      rw [parent?_of_size_le (Nat.le_of_eq hLast.symm), Option.filter_none]
    · rfl
  | child parent count => exact absurd rfl (h parent count)
  | define g name value =>
    simp only [perform, Store.define]
    split
    · rfl
    · exact parent?_bind s g f name value
  | assign g name value =>
    simp only [perform, Store.assign]
    split
    · rename_i r _
      exact parent?_bind s r f name value
    · rfl
  | resolve g name =>
    simp only [perform]
    split <;> rfl
  | evaluateText g source =>
    simp only [perform]
    split <;> rfl
  | get _ _ | contains _ _ | parent _ | evaluate _ _ => rfl

/-- A parent is there from before or comes with its child. -/
theorem parent?_perform_iff {s : Store} {c : Command} {f p : Nat} :
    (s.perform c).2.parent? f = some p ↔ s.parent? f = some p ∨ s.Makes c f p := by
  by_cases hChild : ∃ parent count, c = .child parent count
  · obtain ⟨parent, count, rfl⟩ := hChild
    exact parent?_newChain_iff
  · have hNot : ¬s.Makes c f p := by
      intro hMakes
      cases hMakes <;> exact hChild ⟨_, _, rfl⟩
    rw [parent?_perform_of_ne fun parent count hEq => hChild ⟨parent, count, hEq⟩]
    simp [hNot]

/-- The parent of a frame is the one that it was made below. -/
theorem parent?_behind_iff {run : List Command} {f p : Nat} : (behind run).parent? f = some p ↔
    ∃ before c after, run = before ++ c :: after ∧ (behind before).Makes c f p := by
  induction run using List.reverseRecOn with
  | nil => simp [behind, performAll, empty, parent?]
  | append_singleton run c ih =>
    rw [behind_concat, parent?_perform_iff, ih]
    constructor
    · rintro (⟨before, d, after, rfl, hMakes⟩ | hMakes)
      · exact ⟨before, d, after ++ [c], by simp, hMakes⟩
      · exact ⟨run, c, [], rfl, hMakes⟩
    · rintro ⟨before, d, after, hRun, hMakes⟩
      rcases concat_eq_append_cons_iff.mp hRun with ⟨rfl, rfl, rfl⟩ | ⟨front, rfl, rfl⟩
      · exact .inr hMakes
      · exact .inl ⟨before, d, front, rfl, hMakes⟩

theorem Makes.size_le {s : Store} {c : Command} {f p : Nat} (h : s.Makes c f p) : s.size ≤ f := by
  cases h <;> omega

theorem parent?_perform_of_lt {s : Store} {f : Nat} (h : f < s.size) (c : Command) :
    (s.perform c).2.parent? f = s.parent? f := by
  apply Option.ext
  intro p
  rw [parent?_perform_iff]
  constructor
  · rintro (hParent | hMakes)
    · exact hParent
    · have hNew := hMakes.size_le
      omega
  · exact .inl

theorem parent?_behind_append {before : List Command} {f : Nat} (h : f < (behind before).size)
    (after : List Command) : (behind (before ++ after)).parent? f = (behind before).parent? f := by
  induction after using List.reverseRecOn with
  | nil => rw [List.append_nil]
  | append_singleton after c ih =>
    have hStill := Nat.lt_of_lt_of_le h (size_le_behind before after)
    rw [← List.append_assoc, behind_concat, parent?_perform_of_lt hStill, ih]

theorem contains_behind_append {before after : List Command} {f : Nat} {name : String}
    (h : (behind before).contains f name = true) :
    (behind (before ++ after)).contains f name = true := by
  obtain ⟨front, c, rest, rfl, hDefines⟩ := contains_behind_iff.mp h
  exact contains_behind_iff.mpr ⟨front, c, rest ++ after, by simp, hDefines⟩

/-- The frame `p` is the parent of `f`. -/
def IsParent (s : Store) (p f : Nat) : Prop := s.parent? f = some p

theorem wellFounded_isParent (s : Store) : WellFounded s.IsParent :=
  Subrelation.wf (fun h => s.parent?_lt h) Nat.lt_wfRel.wf

theorem lt_of_transGen_isParent {s : Store} {g f : Nat} (h : Relation.TransGen s.IsParent g f) :
    g < f := by
  induction h with
  | single hParent => exact s.parent?_lt hParent
  | tail _ hParent ih => exact Nat.lt_trans ih (s.parent?_lt hParent)

/-- The search for a frame that binds the name, one frame after the other: `seen` are the frames that it
asks, and `found` is the one that it ends with, if any. -/
inductive Search (s : Store) (name : String) : Option Nat → List Nat → Option Nat → Prop where
  | outside : Search s name none [] none
  | here {g : Nat} : s.contains g name = true → Search s name (some g) [g] (some g)
  | outward {g : Nat} {seen : List Nat} {found : Option Nat} : s.contains g name = false →
      Search s name (s.parent? g) seen found → Search s name (some g) (g :: seen) found

section Search

variable {s : Store} {name : String}

theorem exists_search (s : Store) (name : String) (start : Option Nat) :
    ∃ seen found, s.Search name start seen found := by
  cases start with
  | none => exact ⟨[], none, .outside⟩
  | some g =>
    -- parents are older, so the induction goes outwards
    induction g using s.wellFounded_isParent.induction with
    | _ g ih =>
      cases hBinds : s.contains g name with
      | true => exact ⟨[g], some g, .here hBinds⟩
      | false =>
        cases hParent : s.parent? g with
        | none =>
          refine ⟨[g], none, .outward hBinds ?_⟩
          rw [hParent]
          exact .outside
        | some p =>
          obtain ⟨seen, found, hSearch⟩ := ih p hParent
          refine ⟨g :: seen, found, .outward hBinds ?_⟩
          rw [hParent]
          exact hSearch

theorem Search.unique {start : Option Nat} {seen seen' : List Nat} {found found' : Option Nat}
    (h : s.Search name start seen found) (h' : s.Search name start seen' found') :
    seen' = seen ∧ found' = found := by
  induction h generalizing seen' found' with
  | outside =>
    cases h'
    exact ⟨rfl, rfl⟩
  | here hBinds =>
    cases h' with
    | here => exact ⟨rfl, rfl⟩
    | outward hFree => simp [hBinds] at hFree
  | outward hFree _ ih =>
    cases h' with
    | here hBinds => simp [hFree] at hBinds
    | outward _ hRest =>
      obtain ⟨rfl, rfl⟩ := ih hRest
      exact ⟨rfl, rfl⟩

theorem Search.found_eq {start found : Option Nat} {seen : List Nat}
    (h : s.Search name start seen found) : found = start.bind fun g => s.resolve? g name := by
  induction h with
  | outside => rfl
  | here hBinds => rw [Option.bind_some, resolve?_eq, if_pos hBinds]
  | outward hFree _ ih => rw [ih, Option.bind_some, resolve?_eq, if_neg (by simp [hFree])]

theorem Search.found_mem {start found : Option Nat} {seen : List Nat}
    (h : s.Search name start seen found) :
    ∀ r ∈ found, r ∈ seen ∧ s.contains r name = true := by
  induction h with
  | outside => simp
  | here hBinds =>
    rintro r ⟨⟩
    exact ⟨List.mem_cons_self, hBinds⟩
  | outward _ _ ih =>
    intro r hr
    obtain ⟨hSeen, hBinds⟩ := ih r hr
    exact ⟨List.mem_cons_of_mem _ hSeen, hBinds⟩

theorem Search.transGen {f : Nat} {start found : Option Nat} {seen : List Nat}
    (h : s.Search name start seen found) (hStart : s.parent? f = start) :
    ∀ g ∈ seen, Relation.TransGen s.IsParent g f := by
  induction h generalizing f with
  | outside => simp
  | here =>
    intro g hg
    obtain rfl := List.mem_singleton.mp hg
    exact .single hStart
  | outward _ _ ih =>
    intro g hg
    rcases List.mem_cons.mp hg with rfl | hRest
    · exact .single hStart
    · exact .tail (ih rfl g hRest) hStart

theorem Search.pairwise {start found : Option Nat} {seen : List Nat}
    (h : s.Search name start seen found) : seen.Pairwise (· > ·) := by
  induction h with
  | outside => exact .nil
  | here => simp
  | outward _ hRest ih =>
    refine List.pairwise_cons.mpr ⟨?_, ih⟩
    intro g hg
    exact lt_of_transGen_isParent (hRest.transGen rfl g hg)

theorem Search.resolve?_eq {f : Nat} {seen : List Nat} {found : Option Nat}
    (h : s.Search name (s.parent? f) seen found) :
    s.resolve? f name = if s.contains f name then some f else found := by
  rw [h.found_eq]
  exact Store.resolve?_eq s f name

end Search

/-- Whatever commands have made of a store, its frames stand below older ones and keep their parents and
their names. So no frame stands below itself, and a search for a name among the frames further out ends,
in one way only, without asking the frame that it began from or any other frame twice. The frame that it
finds holds a value for the name: this value is what is looked up, and what is replaced by an
assignment. -/
theorem chains_end_and_names_stay (run : List Command) :
    let s := behind run
    ((∀ p f, s.IsParent p f → p < f) ∧ WellFounded s.IsParent ∧
      ∀ f, ¬Relation.TransGen s.IsParent f f) ∧
    (∀ f p, s.parent? f = some p ↔
      ∃ before c after, run = before ++ c :: after ∧ (behind before).Makes c f p) ∧
    (∀ before after, run = before ++ after → ∀ f,
      (f < (behind before).size → s.parent? f = (behind before).parent? f) ∧
      ∀ name, (behind before).contains f name = true → s.contains f name = true) ∧
    ∀ f name, ∃ seen found, s.Search name (s.parent? f) seen found ∧
      (∀ seen' found', s.Search name (s.parent? f) seen' found' → seen' = seen ∧ found' = found) ∧
      f ∉ seen ∧ seen.Nodup ∧
      s.resolve? f name = (if s.contains f name then some f else found) ∧
      (∀ r ∈ found, ∃ value, s.find? r name = some value ∧ (s.contains f name = false →
        s.get f name = .ok value ∧ ∀ w, s.assign f name w = .ok (s.bind r name w))) ∧
      ∀ r, s.resolve? f name = some r → ∃ value, s.find? r name = some value ∧
        s.get f name = .ok value := by
  intro s
  refine ⟨⟨fun _ _ => s.parent?_lt, s.wellFounded_isParent, ?_⟩, fun f p => parent?_behind_iff, ?_, ?_⟩
  · intro f hBelow
    exact Nat.lt_irrefl f (lt_of_transGen_isParent hBelow)
  · rintro before after rfl f
    exact ⟨fun hFrame => parent?_behind_append hFrame after, fun name => contains_behind_append⟩
  · intro f name
    obtain ⟨seen, found, hSearch⟩ := exists_search s name (s.parent? f)
    have hResolve := hSearch.resolve?_eq
    refine ⟨seen, found, hSearch, fun _ _ => hSearch.unique, ?_, ?_, hResolve, ?_, ?_⟩
    · intro hSeen
      exact Nat.lt_irrefl f (lt_of_transGen_isParent (hSearch.transGen rfl f hSeen))
    · exact hSearch.pairwise.imp Nat.ne_of_gt
    · intro r hr
      obtain ⟨_, hBinds⟩ := hSearch.found_mem r hr
      obtain ⟨value, hFind⟩ := Option.isSome_iff_exists.mp hBinds
      refine ⟨value, hFind, ?_⟩
      intro hFree
      rw [hFree, if_neg (by simp), Option.mem_def.mp hr] at hResolve
      exact ⟨get_of_resolve? hResolve hFind, fun w => by rw [assign, hResolve]⟩
    · intro r hLeads
      obtain ⟨value, hFind⟩ := Option.isSome_iff_exists.mp (contains_of_resolve? hLeads)
      exact ⟨value, hFind, get_of_resolve? hLeads hFind⟩

/-- The search from the innermost of three frames asks the other two and finds the binding of the
outermost, which came before them; the assignment made along this way is what is looked up. -/
theorem chains_end_and_names_stay_assigned :
    let before : List Command := [.global, .define 0 "x" .null]
    let s := behind (before ++ [.child 0 2, .define 1 "y" .null, .assign 2 "x" (.number 1)])
    (behind before).contains 0 "x" = true ∧ s.contains 0 "x" = true ∧
      s.Search "x" (s.parent? 2) [1, 0] (some 0) ∧ s.get 2 "x" = .ok (.number 1) := by
  intro before s
  have hThen : (behind before).contains 0 "x" = true := by decide +kernel
  have hParent : s.parent? 2 = some 1 := by decide +kernel
  have hOuter : s.parent? 1 = some 0 := by decide +kernel
  have hSearch : s.Search "x" (s.parent? 2) [1, 0] (some 0) := by
    rw [hParent]
    refine .outward (by decide +kernel) ?_
    rw [hOuter]
    exact .here (by decide +kernel)
  obtain ⟨_, _, hKept, hSearches⟩ := chains_end_and_names_stay
    (before ++ [.child 0 2, .define 1 "y" .null, .assign 2 "x" (.number 1)])
  obtain ⟨seen, found, _, hOnly, _, _, _, hFound, _⟩ := hSearches 2 "x"
  obtain ⟨rfl, rfl⟩ := hOnly _ _ hSearch
  obtain ⟨value, hFind, hValue⟩ := hFound 0 rfl
  have hWritten : s.find? 0 "x" = some (.number 1) := by with_unfolding_all rfl
  obtain rfl : value = .number 1 := Option.some.inj (hFind.symm.trans hWritten)
  exact ⟨hThen, (hKept before _ rfl 0).2 "x" hThen, hSearch, (hValue (by decide +kernel)).1⟩

end Reckoner.Store
