import Reckoner.Proofs.Scope.History

/-! # Names do not interfere

Two stores agree on a name if they have the same frames and bind this name alike, whatever else they
bind. Commands about the name get the same reply from both and keep them in agreement, and commands
about other names may as well be left out.
-/
namespace Reckoner.Store
set_option autoImplicit false

/-- The command is about frames alone or about the given name. An evaluation may ask for any name. -/
def Command.concerns (name : String) : Command → Bool
  | .global | .child _ _ | .parent _ => true
  | .define _ other _ | .assign _ other _ | .get _ other | .contains _ other | .resolve _ other =>
    other == name
  | .evaluate _ _ | .evaluateText _ _ => false

structure Agree (name : String) (s t : Store) : Prop where
  size_eq : s.size = t.size
  parent?_eq : ∀ f, s.parent? f = t.parent? f
  find?_eq : ∀ f, s.find? f name = t.find? f name

namespace Agree

variable {name : String} {s t : Store}

theorem refl (name : String) (s : Store) : Agree name s s := ⟨rfl, fun _ => rfl, fun _ => rfl⟩

theorem contains_eq (h : Agree name s t) (f : Nat) : s.contains f name = t.contains f name := by
  rw [contains, h.find?_eq, contains]

theorem resolve?_eq (h : Agree name s t) (f : Nat) : s.resolve? f name = t.resolve? f name :=
  resolve?_congr h.parent?_eq h.contains_eq f

theorem get_eq (h : Agree name s t) (f : Nat) : s.get f name = t.get f name :=
  get_congr (h.resolve?_eq f) fun r _ => h.find?_eq r

theorem push (h : Agree name s t) (parent : Option Nat) :
    Agree name (s.push parent) (t.push parent) := by
  refine ⟨?_, fun f => ?_, fun f => ?_⟩
  · rw [size_push, size_push, h.size_eq]
  · rw [parent?_push, parent?_push, h.size_eq, h.parent?_eq]
  · rw [find?_push, find?_push, h.find?_eq]

theorem newChain (h : Agree name s t) (count parent : Nat) :
    (Store.newChain count parent s).1 = (Store.newChain count parent t).1 ∧
      Agree name (Store.newChain count parent s).2 (Store.newChain count parent t).2 := by
  induction count generalizing parent s t with
  | zero => exact ⟨rfl, h⟩
  | succ count ih =>
    simp only [Store.newChain, newChild, h.size_eq]
    exact ih (h.push (some parent)) t.size

theorem bind (h : Agree name s t) (f : Nat) (value : Value) :
    Agree name (s.bind f name value) (t.bind f name value) := by
  by_cases hFrame : f < s.size
  · refine ⟨?_, fun g => ?_, fun g => ?_⟩
    · rw [size_bind, size_bind, h.size_eq]
    · rw [parent?_bind, parent?_bind, h.parent?_eq]
    · rw [find?_bind s f g name name value hFrame,
        find?_bind t f g name name value (h.size_eq ▸ hFrame), h.find?_eq]
  · have hMissing : s.size ≤ f := Nat.le_of_not_lt hFrame
    rw [bind_of_size_le hMissing, bind_of_size_le (h.size_eq ▸ hMissing)]
    exact h

theorem bind_other (h : Agree name s t) {other : String} (hOther : other ≠ name) (f : Nat)
    (value : Value) : Agree name (s.bind f other value) t := by
  by_cases hFrame : f < s.size
  · refine ⟨?_, fun g => ?_, fun g => ?_⟩
    · rw [size_bind, h.size_eq]
    · rw [parent?_bind, h.parent?_eq]
    · rw [find?_bind s f g other name value hFrame, if_neg (fun hBoth => hOther hBoth.2.symm),
        h.find?_eq]
  · rw [bind_of_size_le (Nat.le_of_not_lt hFrame)]
    exact h

/-- A command about the name cannot tell the two stores apart. -/
theorem perform (h : Agree name s t) {c : Command} (hConcerns : c.concerns name = true) :
    (s.perform c).1 = (t.perform c).1 ∧ Agree name (s.perform c).2 (t.perform c).2 := by
  cases c with
  | global => exact ⟨congrArg (fun id => Reply.frame (some id)) h.size_eq, h.push none⟩
  | child f count =>
    obtain ⟨hId, hStores⟩ := h.newChain count f
    exact ⟨congrArg (fun id => Reply.frame (some id)) hId, hStores⟩
  | parent f => exact ⟨congrArg Reply.frame (h.parent?_eq f), h⟩
  | define f other value =>
    obtain rfl : other = name := eq_of_beq hConcerns
    simp only [Store.perform, Store.define, h.contains_eq]
    split
    · exact ⟨rfl, h⟩
    · exact ⟨rfl, h.bind f value⟩
  | assign f other value =>
    obtain rfl : other = name := eq_of_beq hConcerns
    simp only [Store.perform, Store.assign, h.resolve?_eq]
    split
    · rename_i r _
      exact ⟨rfl, h.bind r value⟩
    · exact ⟨rfl, h⟩
  | get f other =>
    obtain rfl : other = name := eq_of_beq hConcerns
    simp only [Store.perform, Lookup.eval, h.get_eq, true_and]
    exact h
  | contains f other =>
    obtain rfl : other = name := eq_of_beq hConcerns
    exact ⟨congrArg Reply.flag (h.contains_eq f), h⟩
  | resolve f other =>
    obtain rfl : other = name := eq_of_beq hConcerns
    simp only [Store.perform, Store.resolve, h.resolve?_eq]
    split <;> exact ⟨rfl, h⟩
  | evaluate _ _ | evaluateText _ _ => cases hConcerns

/-- A command that is not about the name leaves the agreement as it is, performed in one store alone. -/
theorem perform_other (h : Agree name s t) {c : Command} (hConcerns : c.concerns name = false) :
    Agree name (s.perform c).2 t := by
  cases c with
  | global | child _ _ | parent _ => cases hConcerns
  | define f other value =>
    simp only [Store.perform, Store.define]
    split
    · exact h
    · exact h.bind_other (ne_of_beq_false hConcerns) f value
  | assign f other value =>
    simp only [Store.perform, Store.assign]
    split
    · rename_i r _
      exact h.bind_other (ne_of_beq_false hConcerns) r value
    · exact h
  | get _ _ | contains _ _ | evaluate _ _ => exact h
  | resolve _ _ | evaluateText _ _ =>
    simp only [Store.perform]
    split <;> exact h

end Agree

theorem performAll_eq (run : List Command) (s : Store) (replies : Array Reply) :
    performAll run s replies =
      (replies ++ (performAll run s #[]).1, (performAll run s #[]).2) := by
  induction run generalizing s replies with
  | nil => simp [performAll]
  | cons c run ih =>
    rw [performAll_cons, performAll_cons, ih, ih _ (#[].push _)]
    simp

theorem toList_performAll_cons (c : Command) (run : List Command) (s : Store) :
    (performAll (c :: run) s #[]).1.toList =
      (s.perform c).1 :: (performAll run (s.perform c).2 #[]).1.toList := by
  rw [performAll_cons, performAll_eq]
  simp

theorem size_performAll (run : List Command) (s : Store) :
    (performAll run s #[]).1.size = run.length := by
  induction run generalizing s with
  | nil => rfl
  | cons c run ih =>
    rw [← Array.length_toList, toList_performAll_cons, List.length_cons, Array.length_toList, ih,
      List.length_cons]

theorem store_performAll_cons (c : Command) (run : List Command) (s : Store) :
    (performAll (c :: run) s #[]).2 = (performAll run (s.perform c).2 #[]).2 := by
  rw [performAll_cons, performAll_eq]

theorem Agree.performAll {name : String} {s t : Store} (h : Agree name s t) (run : List Command) :
    (performAll (run.filter (Command.concerns name)) t #[]).1.toList =
        ((run.zip (performAll run s #[]).1.toList).filter fun pair =>
          pair.1.concerns name).map Prod.snd ∧
      Agree name (performAll run s #[]).2
        (performAll (run.filter (Command.concerns name)) t #[]).2 := by
  induction run generalizing s t with
  | nil => exact ⟨rfl, h⟩
  | cons c run ih =>
    rw [toList_performAll_cons, store_performAll_cons, List.zip_cons_cons]
    cases hConcerns : c.concerns name with
    | true =>
      obtain ⟨hReply, hStores⟩ := h.perform hConcerns
      obtain ⟨hReplies, hLast⟩ := ih hStores
      simp only [List.filter_cons, hConcerns, if_true, List.map_cons]
      rw [toList_performAll_cons, store_performAll_cons, hReplies, hReply]
      exact ⟨rfl, hLast⟩
    | false =>
      -- the command moves the first store alone
      simp only [List.filter_cons, hConcerns]
      exact ih (h.perform_other hConcerns)

/-- The commands that are not about a name may be left out of a run: the replies to all others are the
same, and so is what each frame binds the name to. -/
theorem other_names_do_not_interfere (name : String) (run : List Command) (s : Store) :
    let whole := performAll run s #[]
    let part := performAll (run.filter (Command.concerns name)) s #[]
    whole.1.size = run.length ∧
      part.1.toList =
        ((run.zip whole.1.toList).filter fun pair => pair.1.concerns name).map Prod.snd ∧
      part.2.size = whole.2.size ∧ ∀ f, part.2.find? f name = whole.2.find? f name := by
  intro whole part
  obtain ⟨hReplies, hStores⟩ := (Agree.refl name s).performAll run
  refine ⟨size_performAll run s, hReplies, hStores.size_eq.symm, ?_⟩
  intro f
  exact (hStores.find?_eq f).symm

end Reckoner.Store
