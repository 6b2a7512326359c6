import Reckoner.Transcript

/-! # Playing on streams without a limit

Streams that take any number of bytes take every text, so a transcript is played to its end: the two
outputs, the log and the count of bytes taken grow by what the effects hold for them, in order.
-/
namespace Reckoner
set_option autoImplicit false

namespace Effect

@[simp] def printed : Effect → String
  | .print text => text
  | .consume _ | .complain _ | .record _ => ""

@[simp] def complained : Effect → String
  | .complain text => text
  | .consume _ | .print _ | .record _ => ""

@[simp] def logged : Effect → List Event
  | .record event => [event]
  | .consume _ | .print _ | .complain _ => []

@[simp] def taken : Effect → Nat
  | .consume count => count
  | .print _ | .complain _ | .record _ => 0

end Effect

def outputOf (effects : List Effect) : String := String.join (effects.map Effect.printed)

def complaintsOf (effects : List Effect) : String := String.join (effects.map Effect.complained)

def takenBy : List Effect → Nat
  | [] => 0
  | effect :: effects => effect.taken + takenBy effects

@[simp] theorem outputOf_nil : outputOf [] = "" := by simp [outputOf]

@[simp] theorem outputOf_cons (effect : Effect) (effects : List Effect) :
    outputOf (effect :: effects) = effect.printed ++ outputOf effects := by simp [outputOf]

@[simp] theorem outputOf_append (a b : List Effect) :
    outputOf (a ++ b) = outputOf a ++ outputOf b := by simp [outputOf]

@[simp] theorem complaintsOf_nil : complaintsOf [] = "" := by simp [complaintsOf]

@[simp] theorem complaintsOf_cons (effect : Effect) (effects : List Effect) :
    complaintsOf (effect :: effects) = effect.complained ++ complaintsOf effects := by
  simp [complaintsOf]

@[simp] theorem complaintsOf_append (a b : List Effect) :
    complaintsOf (a ++ b) = complaintsOf a ++ complaintsOf b := by simp [complaintsOf]

@[simp] theorem takenBy_nil : takenBy [] = 0 := rfl

@[simp] theorem takenBy_cons (effect : Effect) (effects : List Effect) :
    takenBy (effect :: effects) = effect.taken + takenBy effects := rfl

@[simp] theorem takenBy_append (a b : List Effect) : takenBy (a ++ b) = takenBy a + takenBy b := by
  induction a with
  | nil => simp
  | cons effect effects ih => simp [ih, Nat.add_assoc]

theorem join_map_flatMap {α β : Type} (text : β → String) (f : α → List β) (items : List α) :
    String.join ((items.flatMap f).map text) =
      String.join (items.map fun item => String.join ((f item).map text)) := by
  induction items with
  | nil => rfl
  | cons item items ih =>
    rw [List.flatMap_cons, List.map_append, String.join_append, ih, List.map_cons, String.join_cons]

theorem outputOf_flatMap {α : Type} (f : α → List Effect) (items : List α) :
    outputOf (items.flatMap f) = String.join (items.map fun item => outputOf (f item)) :=
  join_map_flatMap Effect.printed f items

theorem complaintsOf_flatMap {α : Type} (f : α → List Effect) (items : List α) :
    complaintsOf (items.flatMap f) = String.join (items.map fun item => complaintsOf (f item)) :=
  join_map_flatMap Effect.complained f items

theorem takenBy_flatMap {α : Type} {f : α → List Effect} {bytes : α → List UInt8}
    (h : ∀ item, takenBy (f item) = (bytes item).length) (items : List α) :
    takenBy (items.flatMap f) = (items.map bytes).flatten.length := by
  induction items with
  | nil => rfl
  | cons item items ih => simp only [List.flatMap_cons, takenBy_append, h, ih, List.map_cons,
      List.flatten_cons, List.length_append]

/-- Log events concern neither the outputs nor the input. -/
theorem silent_map_record (events : List Event) :
    outputOf (events.map .record) = "" ∧ complaintsOf (events.map .record) = "" ∧
      takenBy (events.map .record) = 0 := by
  induction events with
  | nil => simp
  | cons event events ih => simp [ih]

namespace Console

def Unlimited (c : Console) : Prop := c.out.capacity = none ∧ c.err.capacity = none

/-- The console behind effects that all succeed. -/
def after (c : Console) (effects : List Effect) : Console where
  out := { c.out with written := c.out.written ++ (outputOf effects).toUTF8 }
  err := { c.err with written := c.err.written ++ (complaintsOf effects).toUTF8 }
  log := c.log ++ effects.flatMap Effect.logged
  consumed := c.consumed + takenBy effects

theorem after_nil (c : Console) : c.after [] = c := by
  simp [after]

theorem after_cons (c : Console) (effect : Effect) (effects : List Effect) :
    c.after (effect :: effects) = (c.after [effect]).after effects := by
  simp [after, ByteArray.append_assoc, Nat.add_assoc, Evaluation.events_append]

theorem perform_unlimited {c : Console} (h : c.Unlimited) (effect : Effect) :
    c.perform effect = (c.after [effect], true) := by
  obtain ⟨hOut, hErr⟩ := h
  cases effect with
  | consume count => simp [perform, after]
  | print text => simp [perform, Stream.write, Stream.room, hOut, after]
  | complain text => simp [perform, Stream.write, Stream.room, hErr, after]
  | record event => simp [perform, after]

theorem play_unlimited {c : Console} (h : c.Unlimited) (effects : List Effect) :
    c.play effects = (c.after effects, true) := by
  induction effects generalizing c with
  | nil => rw [play, after_nil]
  | cons effect effects ih =>
    have hNext : (c.after [effect]).Unlimited := h
    rw [play, perform_unlimited h, after_cons c effect effects]
    exact ih hNext

end Console

theorem Transcript.play_unlimited {α : Type} (t : Transcript Failure α) :
    t.play {} = ⟨Console.after {} t.effects.toList, t.result⟩ := by
  rw [Transcript.play, Console.play_unlimited ⟨rfl, rfl⟩]

/-- What the streams hold when all texts have been written. -/
theorem Transcript.report_unlimited {α : Type} (t : Transcript Failure α) :
    let report := t.play {}
    report.result = t.result ∧ report.console.out.written = (outputOf t.effects.toList).toUTF8 ∧
      report.console.err.written = (complaintsOf t.effects.toList).toUTF8 ∧
      report.console.consumed = takenBy t.effects.toList := by
  simp only [Transcript.play_unlimited, Console.after]
  simp

end Reckoner
