/-! # Lines

A text is cut right behind each newline. What is taken off the end of a line depends on where the line
comes from: a file's line loses its newline and one carriage return directly before it, a typed line
loses every carriage return and newline at its end.
-/
namespace Reckoner.Text
set_option autoImplicit false

/-- Cuts a list behind each element that ends a piece; `current` is the piece under way, reversed. -/
def piecesFrom {α : Type} (ends : α → Bool) : List α → List α → Array (List α) → List (List α)
  | [], [], done => done.toList
  | [], current, done => (done.push current.reverse).toList
  | a :: rest, current, done =>
    if ends a then piecesFrom ends rest [] (done.push (a :: current).reverse)
    else piecesFrom ends rest (a :: current) done

/-- The pieces of a list, each with the element that ends it; only the last one may lack it. -/
def pieces {α : Type} (ends : α → Bool) (list : List α) : List (List α) :=
  piecesFrom ends list [] #[]

theorem piecesFrom_eq {α : Type} (ends : α → Bool) (list current : List α) (done : Array (List α)) :
    piecesFrom ends list current done = done.toList ++ piecesFrom ends list current #[] := by
  induction list generalizing current done with
  | nil => cases current <;> simp [piecesFrom]
  | cons a rest ih =>
    simp only [piecesFrom]
    split
    · rw [ih, ih [] (#[].push _)]
      simp
    · rw [ih]

theorem piecesFrom_append {α : Type} {ends : α → Bool} {part : List α}
    (h : ∀ a ∈ part, ends a = false) (rest current : List α) (done : Array (List α)) :
    piecesFrom ends (part ++ rest) current done =
      piecesFrom ends rest (part.reverse ++ current) done := by
  induction part generalizing current with
  | nil => rfl
  | cons a part ih =>
    have hHead := h a List.mem_cons_self
    have hTail := ih (fun b hb => h b (List.mem_cons_of_mem a hb)) (a :: current)
    simp [piecesFrom, hHead, hTail]

@[simp] theorem pieces_nil {α : Type} (ends : α → Bool) : pieces ends [] = [] := rfl

theorem pieces_of_forall {α : Type} {ends : α → Bool} {part : List α} (hPart : part ≠ [])
    (h : ∀ a ∈ part, ends a = false) : pieces ends part = [part] := by
  have hAll := piecesFrom_append h [] [] #[]
  rw [List.append_nil] at hAll
  rw [pieces, hAll]
  cases hReverse : part.reverse with
  | nil => exact absurd (List.reverse_eq_nil_iff.mp hReverse) hPart
  | cons a rest =>
    have hWhole : (a :: rest).reverse = part := by rw [← hReverse, List.reverse_reverse]
    simp only [List.append_nil, piecesFrom, hWhole]
    rfl

theorem pieces_append_cons {α : Type} {ends : α → Bool} {part : List α} {a : α}
    (h : ∀ b ∈ part, ends b = false) (ha : ends a = true) (rest : List α) :
    pieces ends (part ++ a :: rest) = (part ++ [a]) :: pieces ends rest := by
  rw [pieces, piecesFrom_append h, piecesFrom, if_pos ha, piecesFrom_eq]
  simp [pieces]

def byteLines (bytes : List UInt8) : List (List UInt8) := pieces (· == 10) bytes

/-- A line without its newline, and without one carriage return before that newline. -/
def chopNewline (line : List Char) : List Char :=
  match line.reverse with
  | '\n' :: '\r' :: rest => rest.reverse
  | '\n' :: rest => rest.reverse
  | _ => line

def fileLines (text : List Char) : List (List Char) := (pieces (· == '\n') text).map chopNewline

/-- A typed line without the carriage returns and newlines at its end. -/
def stripEnding (line : List Char) : List Char :=
  (line.reverse.dropWhile fun c => c == '\n' || c == '\r').reverse

def occurs (word : List Char) : List Char → Bool
  | [] => word.isEmpty
  | c :: rest => word.isPrefixOf (c :: rest) || occurs word rest

end Reckoner.Text
