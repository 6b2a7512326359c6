import Reckoner.Proofs.Transcript.Unlimited

/-! # Playing on streams with a limit

A stream with a limit takes texts as long as they fit. The first text that does not fit is cut where the
stream is full, and nothing is done behind it. Up to there the effects are those of streams without a
limit, so what a limited console holds in the end is the beginning of what an unlimited one would hold.
-/
namespace Reckoner
set_option autoImplicit false

namespace Stream

def Fits (s : Stream) : Prop := ∀ k ∈ s.capacity, s.written.size ≤ k

theorem write_some (k : Nat) (written : ByteArray) (text : String) :
    write ⟨some k, written⟩ text =
      (⟨some k, written ++ text.toUTF8.extract 0 (k - written.size)⟩,
        decide (text.toUTF8.size ≤ k - written.size)) := rfl

theorem write_of_fits {s : Stream} {text : String}
    (h : Fits { s with written := s.written ++ text.toUTF8 }) :
    s.write text = ({ s with written := s.written ++ text.toUTF8 }, true) := by
  rcases s with ⟨capacity, written⟩
  cases capacity with
  | none => rfl
  | some k =>
    have hSize : (written ++ text.toUTF8).size ≤ k := h k rfl
    rw [ByteArray.size_append] at hSize
    have hRoom : text.toUTF8.size ≤ k - written.size := by omega
    have hWhole : text.toUTF8.extract 0 (k - written.size) = text.toUTF8 := by
      rw [← Nat.max_eq_left hRoom, ByteArray.extract_zero_max_size]
    rw [write_some, hWhole, decide_eq_true hRoom]

/-- A text that does not fit fills the stream. -/
theorem exists_write_of_not_fits {s : Stream} {text : String} (hStart : s.Fits)
    (h : ¬Fits { s with written := s.written ++ text.toUTF8 }) :
    ∃ kept rest, text.toUTF8 = kept ++ rest ∧
      s.write text = ({ s with written := s.written ++ kept }, false) ∧
      s.capacity = some (s.written ++ kept).size := by
  rcases s with ⟨capacity, written⟩
  cases capacity with
  | none => exact absurd (fun k hk => by cases hk) h
  | some k =>
    have hWritten : written.size ≤ k := hStart k rfl
    have hSize : ¬written.size + text.toUTF8.size ≤ k := by
      rw [← ByteArray.size_append]
      intro hFits
      apply h
      rintro _ ⟨⟩
      exact hFits
    have hRoom : ¬text.toUTF8.size ≤ k - written.size := by omega
    refine ⟨text.toUTF8.extract 0 (k - written.size),
      text.toUTF8.extract (k - written.size) text.toUTF8.size, ?_, ?_, ?_⟩
    · rw [ByteArray.extract_append_extract, Nat.zero_min, Nat.max_eq_right (Nat.le_of_not_le hRoom),
        ByteArray.extract_zero_size]
    · rw [write_some, decide_eq_false hRoom]
    · have hFull : written.size + (min (k - written.size) text.toUTF8.size - 0) = k := by omega
      rw [ByteArray.size_append, ByteArray.size_extract, hFull]

end Stream

namespace Console

structure Fits (c : Console) : Prop where
  out : c.out.Fits
  err : c.err.Fits

/-- What the console holds is the beginning of what the other one holds. -/
structure Within (c d : Console) : Prop where
  out : ∃ rest, d.out.written = c.out.written ++ rest
  err : ∃ rest, d.err.written = c.err.written ++ rest
  consumed : c.consumed ≤ d.consumed

/-- The output that an effect writes to. -/
def output? (c : Console) : Effect → Option Stream
  | .print _ => some c.out
  | .complain _ => some c.err
  | .consume _ | .record _ => none

/-- The effects succeed up to one whose text does not fit, and its output is filled to the limit that
it has had from the start. -/
def StopsFull (start : Console) (effects : List Effect) (final : Console) : Prop :=
  ∃ done effect rest before stream, effects = done ++ effect :: rest ∧
    start.play done = (before, true) ∧ before.perform effect = (final, false) ∧
    final.output? effect = some stream ∧
    (start.output? effect).bind Stream.capacity = some stream.written.size

theorem capacity_output?_after (c : Console) (effects : List Effect) (effect : Effect) :
    ((c.after effects).output? effect).bind Stream.capacity =
      (c.output? effect).bind Stream.capacity := by
  cases effect <;> rfl

theorem Within.trans {c d e : Console} (h : c.Within d) (h' : d.Within e) : c.Within e := by
  obtain ⟨⟨a, hOut⟩, ⟨b, hErr⟩, hConsumed⟩ := h
  obtain ⟨⟨a', hOut'⟩, ⟨b', hErr'⟩, hConsumed'⟩ := h'
  refine ⟨⟨a ++ a', ?_⟩, ⟨b ++ b', ?_⟩, Nat.le_trans hConsumed hConsumed'⟩
  · rw [hOut', hOut, ByteArray.append_assoc]
  · rw [hErr', hErr, ByteArray.append_assoc]

theorem within_after (c : Console) (effects : List Effect) : c.Within (c.after effects) :=
  ⟨⟨_, rfl⟩, ⟨_, rfl⟩, Nat.le_add_right _ _⟩

theorem Fits.of_after {c : Console} {effects : List Effect} (h : (c.after effects).Fits) :
    c.Fits := by
  constructor
  · intro k hk
    have hSize := h.out k hk
    simp only [after, ByteArray.size_append] at hSize
    omega
  · intro k hk
    have hSize := h.err k hk
    simp only [after, ByteArray.size_append] at hSize
    omega

theorem after_print (c : Console) (text : String) : c.after [.print text] =
    { c with out := { c.out with written := c.out.written ++ text.toUTF8 } } := by
  simp [after]

theorem after_complain (c : Console) (text : String) : c.after [.complain text] =
    { c with err := { c.err with written := c.err.written ++ text.toUTF8 } } := by
  simp [after]

theorem perform_of_fits {c : Console} {effect : Effect} (h : (c.after [effect]).Fits) :
    c.perform effect = (c.after [effect], true) := by
  cases effect with
  | consume count => simp [perform, after]
  | record event => simp [perform, after]
  | print text =>
    rw [after_print] at h ⊢
    rw [perform, Stream.write_of_fits h.out]
  | complain text =>
    rw [after_complain] at h ⊢
    rw [perform, Stream.write_of_fits h.err]

theorem exists_perform_of_not_fits {c : Console} {effect : Effect} (hStart : c.Fits)
    (h : ¬(c.after [effect]).Fits) :
    ∃ final stream, c.perform effect = (final, false) ∧ final.output? effect = some stream ∧
      (c.output? effect).bind Stream.capacity = some stream.written.size ∧
      final.Within (c.after [effect]) := by
  cases effect with
  | consume count | record event =>
    refine absurd ⟨?_, ?_⟩ h
    · simpa [after] using hStart.out
    · simpa [after] using hStart.err
  | print text =>
    rw [after_print] at h ⊢
    obtain ⟨kept, rest, hText, hWrite, hFull⟩ :=
      Stream.exists_write_of_not_fits hStart.out fun hFits => h ⟨hFits, hStart.err⟩
    refine ⟨{ c with out := { c.out with written := c.out.written ++ kept } }, _,
      by rw [perform, hWrite], rfl, hFull, ⟨⟨rest, ?_⟩, ⟨.empty, ?_⟩, Nat.le_refl _⟩⟩
    · rw [hText, ByteArray.append_assoc]
    · rw [ByteArray.append_empty]
  | complain text =>
    rw [after_complain] at h ⊢
    obtain ⟨kept, rest, hText, hWrite, hFull⟩ :=
      Stream.exists_write_of_not_fits hStart.err fun hFits => h ⟨hStart.out, hFits⟩
    refine ⟨{ c with err := { c.err with written := c.err.written ++ kept } }, _,
      by rw [perform, hWrite], rfl, hFull, ⟨⟨.empty, ?_⟩, ⟨rest, ?_⟩, Nat.le_refl _⟩⟩
    · rw [ByteArray.append_empty]
    · rw [hText, ByteArray.append_assoc]

theorem play_of_fits {c : Console} {effects : List Effect} (h : (c.after effects).Fits) :
    c.play effects = (c.after effects, true) := by
  induction effects generalizing c with
  | nil => rw [play, after_nil]
  | cons effect effects ih =>
    rw [after_cons] at h
    rw [play, perform_of_fits h.of_after, after_cons c effect effects]
    exact ih h

theorem exists_play_of_not_fits {c : Console} {effects : List Effect} (hStart : c.Fits)
    (h : ¬(c.after effects).Fits) :
    ∃ final, c.play effects = (final, false) ∧ c.StopsFull effects final ∧
      final.Within (c.after effects) := by
  induction effects generalizing c with
  | nil =>
    rw [after_nil] at h
    exact absurd hStart h
  | cons effect effects ih =>
    rw [after_cons] at h ⊢
    by_cases hNext : (c.after [effect]).Fits
    · obtain ⟨final, hPlay, hStops, hWithin⟩ := ih hNext h
      obtain ⟨done, last, rest, before, stream, rfl, hDone, hLast, hStream, hFull⟩ := hStops
      refine ⟨final, ?_, ⟨effect :: done, last, rest, before, stream, rfl, ?_, hLast, hStream, ?_⟩,
        hWithin⟩
      · rw [play, perform_of_fits hNext]
        exact hPlay
      · rw [play, perform_of_fits hNext]
        exact hDone
      · -- no effect changes a capacity, so the limit is the one of the start
        rw [capacity_output?_after] at hFull
        exact hFull
    · obtain ⟨final, stream, hPerform, hStream, hFull, hWithin⟩ :=
        exists_perform_of_not_fits hStart hNext
      refine ⟨final, by rw [play, hPerform], ?_, hWithin.trans (within_after _ effects)⟩
      exact ⟨[], effect, effects, c, stream, rfl, rfl, hPerform, hStream, hFull⟩

/-- A console on which nothing has been written, with the limits of its two outputs. -/
def limited (outLimit errLimit : Option Nat) : Console :=
  { out := { capacity := outLimit }, err := { capacity := errLimit } }

theorem fits_limited (outLimit errLimit : Option Nat) : (limited outLimit errLimit).Fits :=
  ⟨fun _ _ => Nat.zero_le _, fun _ _ => Nat.zero_le _⟩

end Console

namespace Transcript

/-- Both outputs take what they would hold without a limit. -/
def FitsWithin {α : Type} (t : Transcript Failure α) (outLimit errLimit : Option Nat) : Prop :=
  (∀ k ∈ outLimit, (t.play {}).console.out.written.size ≤ k) ∧
    ∀ k ∈ errLimit, (t.play {}).console.err.written.size ≤ k

variable {α : Type} {t : Transcript Failure α} {outLimit errLimit : Option Nat}

theorem fits_after_limited_iff :
    ((Console.limited outLimit errLimit).after t.effects.toList).Fits ↔
      t.FitsWithin outLimit errLimit := by
  rw [FitsWithin, play_unlimited]
  constructor
  · intro h
    exact ⟨h.out, h.err⟩
  · rintro ⟨hOut, hErr⟩
    exact ⟨hOut, hErr⟩

theorem play_limited_of_fits (h : t.FitsWithin outLimit errLimit) :
    t.play (.limited outLimit errLimit) =
      ⟨(Console.limited outLimit errLimit).after t.effects.toList, t.result⟩ := by
  rw [play, Console.play_of_fits (fits_after_limited_iff.mpr h)]

theorem exists_play_limited_of_not_fits (h : ¬t.FitsWithin outLimit errLimit) :
    ∃ final, t.play (.limited outLimit errLimit) = ⟨final, .error (.stream .full)⟩ ∧
      (Console.limited outLimit errLimit).StopsFull t.effects.toList final ∧
      final.Within (t.play {}).console := by
  obtain ⟨final, hPlay, hStops, hWithin⟩ := Console.exists_play_of_not_fits
    (Console.fits_limited outLimit errLimit) (mt fits_after_limited_iff.mp h)
  refine ⟨final, by rw [play, hPlay], hStops, ?_⟩
  rw [play_unlimited]
  exact ⟨hWithin.out, hWithin.err, hWithin.consumed⟩

theorem within_play_limited (t : Transcript Failure α) (outLimit errLimit : Option Nat) :
    (t.play (.limited outLimit errLimit)).console.Within (t.play {}).console := by
  by_cases hFits : t.FitsWithin outLimit errLimit
  · rw [play_limited_of_fits hFits, play_unlimited]
    have hEmpty : ∀ written : ByteArray, written = written ++ .empty := fun _ =>
      ByteArray.append_empty.symm
    exact ⟨⟨.empty, hEmpty _⟩, ⟨.empty, hEmpty _⟩, Nat.le_refl _⟩
  · obtain ⟨final, hPlay, _, hWithin⟩ := exists_play_limited_of_not_fits hFits
    rw [hPlay]
    exact hWithin

end Transcript

theorem Console.StopsFull.size_out {k : Nat} {effects : List Effect} {final : Console}
    (h : (limited (some k) none).StopsFull effects final) : final.out.written.size = k := by
  obtain ⟨_, effect, _, _, stream, _, _, _, hStream, hFull⟩ := h
  cases effect with
  | print text =>
    cases hStream
    exact (Option.some.inj hFull).symm
  | complain _ | consume _ | record _ => cases hFull

/-- With a limit on the regular output alone, as much is written there as the limit allows. -/
theorem Transcript.written_play_limited {α : Type} (t : Transcript Failure α) (k : Nat) :
    let total := (t.play {}).console.out.written.size
    (t.play (.limited (some k) none)).console.out.written =
        (t.play {}).console.out.written.extract 0 (min k total) ∧
      (t.play (.limited (some k) none)).result =
        if total ≤ k then (t.play {}).result else .error (.stream .full) := by
  intro total
  by_cases hTotal : total ≤ k
  · have hFits : t.FitsWithin (some k) none := by
      constructor
      · rintro _ ⟨⟩
        exact hTotal
      · rintro _ ⟨⟩
    rw [if_pos hTotal, Nat.min_eq_right hTotal, ByteArray.extract_zero_size,
      play_limited_of_fits hFits, play_unlimited]
    exact ⟨rfl, rfl⟩
  · have hFits : ¬t.FitsWithin (some k) none := fun hFits => hTotal (hFits.1 k rfl)
    obtain ⟨final, hPlay, hStops, ⟨rest, hOut⟩, _⟩ := exists_play_limited_of_not_fits hFits
    rw [if_neg hTotal, Nat.min_eq_left (Nat.le_of_not_le hTotal), hPlay, hOut,
      ByteArray.extract_append_eq_left hStops.size_out.symm]
    exact ⟨rfl, rfl⟩

end Reckoner
