import Reckoner.Proofs.Session.Stepwise
import Reckoner.Proofs.Transcript.Limited

/-! # Runs on outputs with a limit

An output that takes a limited number of bytes cuts a run short and changes nothing else about it. What
has been written is the beginning of what would have been written, and the failure is that of the
stream, neither blamed on a line nor reported as one.
-/
namespace Reckoner
set_option autoImplicit false

open Transcript

/-- A script whose output is limited writes as much of its output as the limit allows, and fails for
lack of room if that is not all. A dialogue leaves the beginning of its outputs, takes the beginning of
its input, and stops where an output is full. So do the runs that write as they go. Without a limit the
outputs hold all the texts of the run, one behind the other. -/
theorem limited_runs_are_truncated :
    (∀ (settings : Settings) (path source : String) (k : Nat),
      let run := Script.run settings path source
      let unlimited := run.play {}
      let limited := run.play (.limited (some k) none)
      let total := unlimited.console.out.written.size
      Script.runOn settings path source (.limited (some k) none) = limited ∧
        limited.console.out.written = unlimited.console.out.written.extract 0 (min k total) ∧
        (limited.result = if total ≤ k then unlimited.result else .error (.stream .full)) ∧
        unlimited.result = run.result ∧
        unlimited.console.out.written = (outputOf run.effects.toList).toUTF8) ∧
    ∀ (settings : Settings) (input : List UInt8) (outLimit errLimit : Option Nat),
      let run := Dialogue.run settings input
      let unlimited := run.play {}
      let limited := run.play (.limited outLimit errLimit)
      Dialogue.runOn settings input (.limited outLimit errLimit) = limited ∧
        limited.console.Within unlimited.console ∧
        (run.FitsWithin outLimit errLimit →
          limited.result = unlimited.result ∧
          limited.console.out.written = unlimited.console.out.written ∧
          limited.console.err.written = unlimited.console.err.written ∧
          limited.console.consumed = unlimited.console.consumed) ∧
        (¬run.FitsWithin outLimit errLimit →
          limited.result = .error (.stream .full) ∧
          (Console.limited outLimit errLimit).StopsFull run.effects.toList limited.console) ∧
        unlimited.result = run.result ∧
        unlimited.console.out.written = (outputOf run.effects.toList).toUTF8 ∧
        unlimited.console.err.written = (complaintsOf run.effects.toList).toUTF8 ∧
        unlimited.console.consumed = takenBy run.effects.toList := by
  constructor
  · intro settings path source k run unlimited limited total
    obtain ⟨hWritten, hResult⟩ := run.written_play_limited k
    obtain ⟨hAll, hOut, _⟩ := run.report_unlimited
    exact ⟨by rw [Script.runOn_eq], hWritten, hResult, hAll, hOut⟩
  · intro settings input outLimit errLimit run unlimited limited
    refine ⟨by rw [Dialogue.runOn_eq], run.within_play_limited outLimit errLimit, ?_, ?_,
      run.report_unlimited⟩
    · intro hFits
      have hLimited : limited = _ := play_limited_of_fits hFits
      have hUnlimited : unlimited = _ := play_unlimited run
      rw [hLimited, hUnlimited]
      exact ⟨rfl, rfl, rfl, rfl⟩
    · intro hNot
      obtain ⟨final, hPlay, hStops, _⟩ := exists_play_limited_of_not_fits hNot
      have hLimited : limited = _ := hPlay
      rw [hLimited]
      exact ⟨rfl, hStops⟩

end Reckoner
