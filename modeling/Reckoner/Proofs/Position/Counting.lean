import Mathlib
import Reckoner.Position

/-! # Lines and columns by counting

The position behind a text is one line further for each of its newlines and one column further for each
character on its last line. A walk over the text reaches that position, and as long as the text has fewer
than `2 ^ 31 - 1` characters the counters show these numbers themselves and not their remainders.
-/
namespace Reckoner.Position
set_option autoImplicit false

/-- The characters behind the last newline, or all of them. -/
def lastLine (text : List Char) : List Char := text.rtakeWhile (· != '\n')

/-- The position of what follows a text that stands at the beginning of a source. -/
structure IsBehind (p : Position) (text : List Char) : Prop where
  line_eq : p.line.toInt = 1 + text.count '\n'
  column_eq : p.column.toInt = 1 + (lastLine text).length

/-- Reading order: by lines, and on one line by columns. -/
def NotAfter (p q : Position) : Prop := p.line < q.line ∨ p.line = q.line ∧ p.column ≤ q.column

theorem lastLine_concat_newline (text : List Char) : lastLine (text ++ ['\n']) = [] :=
  List.rtakeWhile_concat_neg _ _ _ (by simp)

theorem lastLine_concat {c : Char} (h : c ≠ '\n') (text : List Char) :
    lastLine (text ++ [c]) = lastLine text ++ [c] :=
  List.rtakeWhile_concat_pos _ _ _ (by simpa using h)

theorem length_lastLine_le (text : List Char) : (lastLine text).length ≤ text.length :=
  (List.rtakeWhile_suffix _ text).length_le

theorem lastLine_append {word : List Char} (h : '\n' ∉ word) (text : List Char) :
    lastLine (text ++ word) = lastLine text ++ word := by
  induction word generalizing text with
  | nil => simp
  | cons c word ih =>
    obtain ⟨hHead, hRest⟩ := not_or.mp (fun hOr => h (List.mem_cons.mpr hOr))
    rw [List.append_cons, ih hRest, lastLine_concat (Ne.symm hHead), ← List.append_cons]

theorem toInt_add_one {n : Int32} (h : n.toInt < 2 ^ 31 - 1) : (n + 1).toInt = n.toInt + 1 := by
  have hLeast := n.le_toInt
  rw [Int32.toInt_add, Int32.toInt_one]
  apply Int.bmod_eq_of_le <;> omega

namespace IsBehind

variable {p q : Position} {text : List Char}

theorem unique (hp : p.IsBehind text) (hq : q.IsBehind text) : p = q := by
  have hLine : p.line = q.line := Int32.toInt_inj.mp (hp.line_eq.trans hq.line_eq.symm)
  have hColumn : p.column = q.column := Int32.toInt_inj.mp (hp.column_eq.trans hq.column_eq.symm)
  rcases p with ⟨line, column⟩
  rcases q with ⟨line', column'⟩
  simp_all

theorem advance (h : p.IsBehind text) {c : Char} (hShort : (text ++ [c]).length < 2 ^ 31 - 1) :
    (p.advance c).IsBehind (text ++ [c]) := by
  have hLength : text.length + 1 < 2 ^ 31 - 1 := by simpa using hShort
  by_cases hNewline : c = '\n'
  · subst hNewline
    have hAdvance : p.advance '\n' = ⟨p.line + 1, 1⟩ := if_pos rfl
    have hCount := List.count_le_length (a := '\n') (l := text)
    have hNext : (p.line + 1).toInt = p.line.toInt + 1 := by
      apply toInt_add_one
      rw [h.line_eq]
      omega
    rw [hAdvance]
    constructor
    · simp only [hNext, h.line_eq, List.count_append, List.count_singleton_self]
      omega
    · rw [lastLine_concat_newline]
      rfl
  · have hAdvance : p.advance c = ⟨p.line, p.column + 1⟩ := if_neg hNewline
    have hLast := length_lastLine_le text
    have hNext : (p.column + 1).toInt = p.column.toInt + 1 := by
      apply toInt_add_one
      rw [h.column_eq]
      omega
    rw [hAdvance]
    constructor
    · simp [h.line_eq, List.count_append, hNewline]
    · simp only [hNext, h.column_eq, lastLine_concat hNewline, List.length_append,
        List.length_singleton]
      omega

/-- Within a line, the column grows by one for each character. -/
theorem of_append (hp : p.IsBehind text) {word : List Char} (hq : q.IsBehind (text ++ word))
    (h : '\n' ∉ word) : q.line = p.line ∧ q.column.toInt - p.column.toInt = word.length := by
  constructor
  · apply Int32.toInt_inj.mp
    rw [hq.line_eq, hp.line_eq, List.count_append, List.count_eq_zero_of_not_mem h]
    rfl
  · rw [hq.column_eq, hp.column_eq, lastLine_append h, List.length_append]
    omega

theorem of_newline_notMem (h : p.IsBehind text) (hNewline : '\n' ∉ text) :
    p.line = 1 ∧ p.column.toInt = 1 + text.length := by
  have hStart : first.IsBehind [] := ⟨rfl, rfl⟩
  obtain ⟨hLine, hColumn⟩ := hStart.of_append h hNewline
  have hFirst : first.column.toInt = 1 := rfl
  exact ⟨hLine, by omega⟩

theorem notAfter (hp : p.IsBehind text) {rest : List Char} (hq : q.IsBehind (text ++ rest)) :
    p.NotAfter q := by
  by_cases hNewline : '\n' ∈ rest
  · left
    have hCount : 0 < rest.count '\n' := List.count_pos_iff.mpr hNewline
    rw [Int32.lt_iff_toInt_lt, hp.line_eq, hq.line_eq, List.count_append]
    omega
  · right
    obtain ⟨hLine, hColumn⟩ := of_append hp hq hNewline
    refine ⟨hLine.symm, ?_⟩
    rw [Int32.le_iff_toInt_le]
    omega

end IsBehind

/-- Walking over a short text ends at the position that counting gives. -/
theorem isBehind_after {text : List Char} (h : text.length < 2 ^ 31 - 1) :
    (first.after text).IsBehind text := by
  induction text using List.reverseRecOn with
  | nil => exact ⟨rfl, rfl⟩
  | append_singleton text c ih =>
    have hBefore : text.length < 2 ^ 31 - 1 := by
      simp only [List.length_append, List.length_singleton] at h
      omega
    rw [after_append]
    exact (ih hBefore).advance h

theorem isBehind_after_of_prefix {pre text : List Char} (hPrefix : pre <+: text)
    (h : text.length < 2 ^ 31 - 1) : (first.after pre).IsBehind pre :=
  isBehind_after (Nat.lt_of_le_of_lt hPrefix.length_le h)

end Reckoner.Position
