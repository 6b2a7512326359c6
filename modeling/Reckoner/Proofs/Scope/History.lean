import Mathlib.Data.List.Induction
import Reckoner.Proofs.Scope.Chain
import Reckoner.Scope.Command

/-! # The history of a store

A store is what its commands have made of it. A frame binds a name if and only if a definition of the
name succeeded there, and the value is that of the last definition or assignment that went to this
frame. Where an assignment went was decided when it was made: a later definition further in hides a
binding, but moves none.
-/
namespace Reckoner.Store
set_option autoImplicit false

theorem lt_size_of_contains {s : Store} {f : Nat} {name : String} (h : s.contains f name = true) :
    f < s.size := by
  obtain ⟨value, hFind⟩ := Option.isSome_iff_exists.mp h
  obtain ⟨frame, hFrame, _⟩ := Option.bind_eq_some_iff.mp hFind
  exact (Array.getElem?_eq_some_iff.mp hFrame).1

theorem bind_of_size_le {s : Store} {f : Nat} (h : s.size ≤ f) (name : String) (value : Value) :
    s.bind f name value = s := by
  have hFrames : ∀ change : Frame → Frame, s.frames.modify f change = s.frames := by
    intro change
    have hSize : s.frames.size ≤ f := h
    grind
  rcases s with ⟨frames, hParents⟩
  simp only [bind, hFrames]

/-- `s.Binds c r name value`: the command makes the frame `r` of the store bind the name to the value. -/
inductive Binds (s : Store) : Command → Nat → String → Value → Prop where
  | define {f : Nat} {name : String} {value : Value} : f < s.size → s.contains f name = false →
      Binds s (.define f name value) f name value
  | assign {f r : Nat} {name : String} {value : Value} : s.resolve? f name = some r →
      Binds s (.assign f name value) r name value

theorem find?_perform_of_binds {s : Store} {c : Command} {r : Nat} {name : String} {value : Value}
    (h : s.Binds c r name value) (g : Nat) (other : String) :
    (s.perform c).2.find? g other =
      if g = r ∧ other = name then some value else s.find? g other := by
  cases h with
  | define hFrame hFree =>
    simp only [perform, Store.define, hFree, written]
    exact find?_bind s r g name other value hFrame
  | assign hResolve =>
    simp only [perform, Store.assign, hResolve, written]
    exact find?_bind s r g name other value (lt_size_of_contains (contains_of_resolve? hResolve))

theorem find?_newChain (count parent : Nat) (s : Store) (g : Nat) (name : String) :
    (newChain count parent s).2.find? g name = s.find? g name := by
  induction count generalizing parent s with
  | zero => rfl
  | succ count ih => rw [newChain, newChild, ih, find?_push]

theorem find?_perform_of_not_binds {s : Store} {c : Command}
    (h : ∀ r name value, ¬s.Binds c r name value) (g : Nat) (other : String) :
    (s.perform c).2.find? g other = s.find? g other := by
  cases c with
  | global => exact find?_push s none g other
  | child f count => exact find?_newChain count f s g other
  | define f name value =>
    by_cases hTaken : s.contains f name = true
    · simp only [perform, Store.define, hTaken, written, if_true]
    · have hMissing : s.size ≤ f := by
        refine Nat.le_of_not_lt fun hFrame => h f name value (.define hFrame ?_)
        simpa using hTaken
      simp only [perform, Store.define, hTaken, written, bind_of_size_le hMissing]
      rfl
  | assign f name value =>
    cases hResolve : s.resolve? f name with
    | none => simp only [perform, Store.assign, hResolve, written]
    | some r => exact absurd (.assign hResolve) (h r name value)
  | resolve f name =>
    simp only [perform]
    split <;> rfl
  | evaluateText f source =>
    simp only [perform]
    split <;> rfl
  | get _ _ | contains _ _ | parent _ | evaluate _ _ => rfl

/-- A command changes at most one binding. -/
theorem find?_perform_iff {s : Store} {c : Command} {g : Nat} {name : String} {value : Value} :
    (s.perform c).2.find? g name = some value ↔
      s.Binds c g name value ∨ (s.find? g name = some value ∧ ∀ w, ¬s.Binds c g name w) := by
  by_cases hBinds : ∃ r other w, s.Binds c r other w
  · obtain ⟨r, other, w, hBinds⟩ := hBinds
    rw [find?_perform_of_binds hBinds]
    -- the store and the command settle what is bound
    have hOnly : ∀ g' name' w', s.Binds c g' name' w' → g' = r ∧ name' = other ∧ w' = w := by
      intro g' name' w' hOther
      cases hBinds <;> cases hOther
      · simp
      · simp_all
    grind
  · simp only [not_exists] at hBinds
    rw [find?_perform_of_not_binds hBinds]
    simp [hBinds]

/-- The store behind a run of commands that begins without any frames. -/
def behind (run : List Command) : Store := (performAll run empty #[]).2

theorem behind_concat (run : List Command) (c : Command) :
    behind (run ++ [c]) = ((behind run).perform c).2 := by
  rw [behind, performAll_append]
  rfl

/-- The command defines the name in the frame: the frame is there and the definition succeeds. -/
structure Defines (run : List Command) (f : Nat) (name : String) (value : Value) (c : Command) :
    Prop where
  command : c = .define f name value
  frame : f < (behind run).size
  reply : ((behind run).perform c).1 = .value value

/-- A command of the run has defined the name in the frame. -/
def Defined (run : List Command) (f : Nat) (name : String) : Prop :=
  ∃ before c after, run = before ++ c :: after ∧ ∃ value, Defines before f name value c

/-- `s.Nearest P f r`: from `f` outwards, `r` is the first frame with the property. -/
inductive Nearest (s : Store) (P : Nat → Prop) : Nat → Nat → Prop where
  | here {f : Nat} : P f → Nearest s P f f
  | outward {f p r : Nat} : ¬P f → s.parent? f = some p → Nearest s P p r → Nearest s P f r

/-- The command writes the value to the name in the frame: it defines the name there, or it assigns to
it from a frame for which this one is at that moment the nearest that has defined the name. -/
inductive Writes (run : List Command) (r : Nat) (name : String) (value : Value) (c : Command) :
    Prop where
  | define : Defines run r name value c → Writes run r name value c
  | assign {f : Nat} : c = .assign f name value → ((behind run).perform c).1 = .value value →
      (behind run).Nearest (Defined run · name) f r → Writes run r name value c

/-- The last command of the run that writes to the name in the frame writes the value. -/
def LastWritten (run : List Command) (r : Nat) (name : String) (value : Value) : Prop :=
  ∃ before c after, run = before ++ c :: after ∧ Writes before r name value c ∧
    ∀ middle d rest, after = middle ++ d :: rest →
      ∀ w, ¬Writes (before ++ c :: middle) r name w d

section Concat

variable {run : List Command} {c : Command} {f r : Nat} {name : String} {value : Value}

theorem concat_eq_append_cons_iff {before after : List Command} {d : Command} :
    run ++ [c] = before ++ d :: after ↔ (run = before ∧ c = d ∧ after = []) ∨
      ∃ front, after = front ++ [c] ∧ run = before ++ d :: front := by
  constructor
  · intro h
    rcases List.eq_nil_or_concat after with rfl | ⟨front, last, rfl⟩
    · obtain ⟨rfl, hLast⟩ := List.append_inj' h rfl
      exact .inl ⟨rfl, List.head_eq_of_cons_eq hLast, rfl⟩
    · rw [List.concat_eq_append, ← List.cons_append, ← List.append_assoc] at h
      obtain ⟨rfl, hLast⟩ := List.append_inj' h rfl
      obtain rfl := List.head_eq_of_cons_eq hLast
      exact .inr ⟨front, List.concat_eq_append, rfl⟩
  · rintro (⟨rfl, rfl, rfl⟩ | ⟨front, rfl, rfl⟩)
    · rfl
    · simp

theorem defined_concat_iff :
    Defined (run ++ [c]) f name ↔ Defined run f name ∨ ∃ value, Defines run f name value c := by
  constructor
  · rintro ⟨before, d, after, hRun, hDefines⟩
    rcases concat_eq_append_cons_iff.mp hRun with ⟨rfl, rfl, rfl⟩ | ⟨front, rfl, rfl⟩
    · exact .inr hDefines
    · exact .inl ⟨before, d, front, rfl, hDefines⟩
  · rintro (⟨before, d, after, rfl, hDefines⟩ | hDefines)
    · exact ⟨before, d, after ++ [c], by simp, hDefines⟩
    · exact ⟨run, c, [], rfl, hDefines⟩

theorem lastWritten_concat_iff : LastWritten (run ++ [c]) r name value ↔
    Writes run r name value c ∨
      (LastWritten run r name value ∧ ∀ w, ¬Writes run r name w c) := by
  constructor
  · rintro ⟨before, d, after, hRun, hWrites, hLast⟩
    rcases concat_eq_append_cons_iff.mp hRun with ⟨rfl, rfl, rfl⟩ | ⟨front, rfl, rfl⟩
    · exact .inl hWrites
    · refine .inr ⟨⟨before, d, front, rfl, hWrites, ?_⟩, hLast front c [] rfl⟩
      rintro middle e rest rfl
      exact hLast middle e (rest ++ [c]) (by simp)
  · rintro (hWrites | ⟨⟨before, d, after, rfl, hWrites, hLast⟩, hNone⟩)
    · exact ⟨run, c, [], rfl, hWrites, by simp⟩
    · refine ⟨before, d, after ++ [c], by simp, hWrites, ?_⟩
      intro middle e rest hAfter
      rcases concat_eq_append_cons_iff.mp hAfter with ⟨rfl, rfl, rfl⟩ | ⟨front, rfl, rfl⟩
      · exact hNone
      · exact hLast middle e front rfl

end Concat

theorem reply_define_iff {s : Store} {f : Nat} {name : String} {value : Value} :
    (s.perform (.define f name value)).1 = .value value ↔ s.contains f name = false := by
  cases hTaken : s.contains f name <;> simp [perform, Store.define, hTaken, written]

theorem reply_assign_iff {s : Store} {f : Nat} {name : String} {value : Value} :
    (s.perform (.assign f name value)).1 = .value value ↔ ∃ r, s.resolve? f name = some r := by
  cases hResolve : s.resolve? f name <;> simp [perform, Store.assign, hResolve, written]

theorem resolve?_eq_some_iff {s : Store} {f r : Nat} {name : String} :
    s.resolve? f name = some r ↔ s.Nearest (fun g => s.contains g name = true) f r := by
  constructor
  · intro h
    fun_induction s.resolve? f name with
    | case1 f hBinds =>
      obtain rfl : f = r := Option.some.inj h
      exact .here hBinds
    | case2 => cases h
    | case3 f hNot p hParent _ ih => exact .outward hNot hParent (ih h)
  · intro h
    induction h with
    | here hBinds => rw [resolve?_eq, if_pos hBinds]
    | outward hNot hParent _ ih => rw [resolve?_eq, if_neg hNot, hParent, Option.bind_some, ih]

/-- A frame binds the names that have been defined in it. -/
theorem contains_behind_iff {run : List Command} {f : Nat} {name : String} :
    (behind run).contains f name = true ↔ Defined run f name := by
  induction run using List.reverseRecOn with
  | nil => simp [behind, performAll, empty, contains, find?, Defined]
  | append_singleton run c ih =>
    rw [behind_concat, defined_concat_iff, ← ih]
    simp only [contains, Option.isSome_iff_exists, find?_perform_iff]
    constructor
    · rintro ⟨value, hBinds | ⟨hFind, _⟩⟩
      · cases hBinds with
        | define hFrame hFree =>
          exact .inr ⟨value, rfl, hFrame, reply_define_iff.mpr hFree⟩
        | assign hResolve =>
          -- an assignment goes to a frame that has bound the name before
          exact .inl (Option.isSome_iff_exists.mp (contains_of_resolve? hResolve))
      · exact .inl ⟨value, hFind⟩
    · rintro (⟨value, hFind⟩ | ⟨value, rfl, hFrame, hReply⟩)
      · by_cases hBinds : ∃ w, (behind run).Binds c f name w
        · obtain ⟨w, hBinds⟩ := hBinds
          exact ⟨w, .inl hBinds⟩
        · exact ⟨value, .inr ⟨hFind, not_exists.mp hBinds⟩⟩
      · exact ⟨value, .inl (.define hFrame (reply_define_iff.mp hReply))⟩

theorem resolve?_behind_iff {run : List Command} {f r : Nat} {name : String} :
    (behind run).resolve? f name = some r ↔ (behind run).Nearest (Defined run · name) f r := by
  simp only [resolve?_eq_some_iff, contains_behind_iff]

theorem writes_iff_binds {run : List Command} {r : Nat} {name : String} {value : Value}
    {c : Command} : Writes run r name value c ↔ (behind run).Binds c r name value := by
  constructor
  · rintro (⟨rfl, hFrame, hReply⟩ | ⟨rfl, _, hNearest⟩)
    · exact .define hFrame (reply_define_iff.mp hReply)
    · exact .assign (resolve?_behind_iff.mpr hNearest)
  · intro h
    cases h with
    | define hFrame hFree => exact .define ⟨rfl, hFrame, reply_define_iff.mpr hFree⟩
    | assign hResolve =>
      exact .assign rfl (reply_assign_iff.mpr ⟨r, hResolve⟩) (resolve?_behind_iff.mp hResolve)

/-- A frame binds a name to the value that was written to it last. -/
theorem find?_behind_iff {run : List Command} {r : Nat} {name : String} {value : Value} :
    (behind run).find? r name = some value ↔ LastWritten run r name value := by
  induction run using List.reverseRecOn with
  | nil => simp [behind, performAll, empty, find?, LastWritten]
  | append_singleton run c ih =>
    rw [behind_concat, find?_perform_iff, lastWritten_concat_iff, ih]
    simp only [writes_iff_binds]

/-- From a frame, a name leads to the nearest frame outwards in which it has been defined, and there to
the value that was written last; where no such frame is, the name is undefined. -/
theorem lookup_determined_by_history (run : List Command) (f : Nat) (name : String) :
    let s := behind run
    (∀ g, s.contains g name = true ↔ Defined run g name) ∧
      (∀ r, s.Nearest (Defined run · name) f r →
        s.contains r name = true ∧ s.resolve f name = .ok r ∧
          ∃ value, LastWritten run r name value ∧ s.get f name = .ok value) ∧
      ((∀ r, ¬s.Nearest (Defined run · name) f r) →
        s.get f name = .error (.undefined name) ∧ s.resolve f name = .error (.undefined name) ∧
          ∀ value, s.assign f name value = .error (.undefined name)) := by
  intro s
  refine ⟨fun g => contains_behind_iff, ?_, ?_⟩
  · intro r hNearest
    have hResolve : s.resolve? f name = some r := resolve?_behind_iff.mpr hNearest
    have hBinds := contains_of_resolve? hResolve
    obtain ⟨value, hFind⟩ := Option.isSome_iff_exists.mp hBinds
    refine ⟨hBinds, ?_, value, find?_behind_iff.mp hFind, ?_⟩
    · rw [resolve, hResolve]
    · rw [get, hResolve, Option.bind_some, hFind]
  · intro hNone
    have hResolve : s.resolve? f name = none :=
      Option.eq_none_iff_forall_ne_some.mpr fun r hSome => hNone r (resolve?_behind_iff.mp hSome)
    refine ⟨?_, ?_, fun value => ?_⟩
    · rw [get, hResolve, Option.bind_none]
    · rw [resolve, hResolve]
    · rw [assign, hResolve]

/-- A binding keeps what was assigned to it from further in, also when a later definition hides it from
there. -/
theorem lookup_determined_by_history_hidden :
    let run : List Command := [.global, .define 0 "x" .null, .child 0 1, .assign 1 "x" (.number 1),
      .define 1 "x" .null]
    (behind run).Nearest (Defined run · "x") 0 0 ∧
      (behind run).resolve 0 "x" = .ok 0 ∧ LastWritten run 0 "x" (.number 1) ∧
      (behind run).get 0 "x" = .ok (.number 1) ∧
      (∀ r, ¬(behind run).Nearest (Defined run · "y") 1 r) ∧
      (behind run).get 1 "y" = .error (.undefined "y") := by
  intro run
  have hDefined : Defined run 0 "x" := contains_behind_iff.mp (by decide +kernel)
  have hNone : ∀ r, ¬(behind run).Nearest (Defined run · "y") 1 r := by
    intro r hNearest
    have hResolve : (behind run).resolve? 1 "y" = none := by decide +kernel
    rw [resolve?_behind_iff.mpr hNearest] at hResolve
    cases hResolve
  have hGet : (behind run).get 0 "x" = .ok (.number 1) := by with_unfolding_all rfl
  obtain ⟨_, hFound, _⟩ := lookup_determined_by_history run 0 "x"
  obtain ⟨_, hResolve, value, hLast, hValue⟩ := hFound 0 (.here hDefined)
  obtain rfl : value = .number 1 := Except.ok.inj (hValue.symm.trans hGet)
  obtain ⟨_, _, hUndefined⟩ := lookup_determined_by_history run 1 "y"
  exact ⟨.here hDefined, hResolve, hLast, hGet, hNone, (hUndefined hNone).1⟩

end Reckoner.Store
