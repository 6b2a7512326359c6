import Reckoner.Proofs.Number.WholeNumber
import Reckoner.Proofs.Text.Lines
import Reckoner.Value

/-! # Values on lines of their own

The text of a value holds nothing that ends a line. Values that are printed one to a line are therefore
the lines of what is printed.
-/
namespace Reckoner
set_option autoImplicit false

namespace Text

def Inline (text : List Char) : Prop := '\r' ∉ text ∧ '\n' ∉ text

instance (text : List Char) : Decidable (Inline text) := inferInstanceAs (Decidable (_ ∧ _))

theorem inline_append_iff {a b : List Char} : Inline (a ++ b) ↔ Inline a ∧ Inline b := by
  simp only [Inline, List.mem_append, not_or]
  constructor
  · rintro ⟨⟨hFirst, hSecond⟩, hFirst', hSecond'⟩
    exact ⟨⟨hFirst, hFirst'⟩, hSecond, hSecond'⟩
  · rintro ⟨⟨hFirst, hFirst'⟩, hSecond, hSecond'⟩
    exact ⟨⟨hFirst, hSecond⟩, hFirst', hSecond'⟩

theorem inline_of_forall_isDigit {text : List Char} (h : ∀ c ∈ text, c.isDigit = true) :
    Inline text := by
  constructor
  · intro hReturn
    cases h '\r' hReturn
  · intro hNewline
    cases h '\n' hNewline

theorem chopNewline_of_inline {line : List Char} (h : Inline line) : chopNewline line = line := by
  have hReverse : '\n' ∉ line.reverse := by
    rw [List.mem_reverse]
    exact h.2
  unfold chopNewline
  split
  · rename_i hLine
    exact absurd (by rw [hLine]; exact List.mem_cons_self) hReverse
  · rename_i hLine
    exact absurd (by rw [hLine]; exact List.mem_cons_self) hReverse
  · rfl

theorem chopNewline_concat_newline {line : List Char} (h : Inline line) :
    chopNewline (line ++ ['\n']) = line := by
  have hReverse : '\r' ∉ line.reverse := by
    rw [List.mem_reverse]
    exact h.1
  unfold chopNewline
  rw [List.reverse_append, List.reverse_singleton, List.singleton_append]
  split
  · rename_i rest hLine
    rw [(List.cons.inj hLine).2] at hReverse
    exact absurd List.mem_cons_self hReverse
  · rename_i rest _ hLine
    rw [← (List.cons.inj hLine).2, List.reverse_reverse]
  · rename_i hOther
    exact absurd rfl (hOther line.reverse)

/-- Lines that are ended by newlines are the lines of the text that they make up. -/
theorem fileLines_flatMap_newline {lines : List (List Char)} (h : ∀ line ∈ lines, Inline line) :
    fileLines (lines.flatMap (· ++ ['\n'])) = lines := by
  induction lines with
  | nil => rfl
  | cons line lines ih =>
    have hLine := h line List.mem_cons_self
    have hNone : ∀ c ∈ line, (c == '\n') = false := by
      intro c hc
      refine beq_eq_false_iff_ne.mpr ?_
      rintro rfl
      exact hLine.2 hc
    have hRest := ih fun other hOther => h other (List.mem_cons_of_mem line hOther)
    rw [fileLines] at hRest
    rw [fileLines, List.flatMap_cons, List.append_assoc, List.singleton_append,
      pieces_append_cons hNone rfl, List.map_cons, chopNewline_concat_newline hLine, hRest]

end Text

namespace Number

open Text

theorem forall_isDigit_fractionText (n places : Nat) :
    ∀ c ∈ fractionText n places, c.isDigit = true := by
  intro c hc
  rw [fractionText, List.mem_reverse] at hc
  have hPadded := List.mem_reverse.mp ((List.dropWhile_sublist _).subset hc)
  rcases List.mem_append.mp hPadded with hZero | hDigit
  · rw [List.eq_of_mem_replicate hZero]
    rfl
  · exact forall_isDigit_toDigits n c hDigit

theorem Decimal.inline_positional (d : Decimal) : Inline d.positional.toList := by
  rcases d with ⟨n, k | k⟩
  · simp only [Decimal.positional, String.toList_ofList]
    apply inline_of_forall_isDigit
    intro c hc
    rcases List.mem_append.mp hc with hDigit | hZero
    · exact forall_isDigit_toDigits n c hDigit
    · rw [List.eq_of_mem_replicate hZero]
      rfl
  · have hWhole := inline_of_forall_isDigit (forall_isDigit_toDigits (n / tenPow (k + 1)))
    have hFraction := inline_of_forall_isDigit
      (forall_isDigit_fractionText (n % tenPow (k + 1)) (k + 1))
    have hPoint : Inline ['.'] := by decide
    simp only [Decimal.positional, String.toList_ofList]
    split
    · exact hWhole
    · rw [List.append_cons]
      exact inline_append_iff.mpr ⟨inline_append_iff.mpr ⟨hWhole, hPoint⟩, hFraction⟩

theorem inline_codeText (code : Nat) : Inline (codeText code).toList := by
  unfold codeText
  split
  · decide
  split
  · decide
  · exact Decimal.inline_positional _

theorem inline_render (x : Float) : Inline (render x).toList := by
  unfold render
  dsimp only
  split
  · decide
  split
  · rw [String.toList_append]
    exact inline_append_iff.mpr ⟨by decide, inline_codeText _⟩
  · exact inline_codeText _

end Number

theorem Value.inline_render (v : Value) : Text.Inline v.render.toList := by
  cases v with
  | null => decide
  | number x => exact Number.inline_render x

end Reckoner
