import Reckoner.Text.Lines

/-! # Lines as parts of a text

`SplitAfter` states how a list is cut behind each element that ends a piece; there is one way to do so.
The lines of a text and those of its bytes correspond, since no other character has the byte of the
newline in its encoding. Of a line's end, both ways of taking it off leave a beginning of the line and
drop nothing but carriage returns and newlines.
-/
namespace Reckoner.Text
set_option autoImplicit false

/-- `SplitAfter ends list parts`: every part goes up to the first element that ends it, and only the
last part may lack such an element. -/
inductive SplitAfter {α : Type} (ends : α → Bool) : List α → List (List α) → Prop where
  | nil : SplitAfter ends [] []
  | last {part : List α} : part ≠ [] → (∀ a ∈ part, ends a = false) → SplitAfter ends part [part]
  | cons {part rest : List α} {a : α} {parts : List (List α)} : (∀ b ∈ part, ends b = false) →
      ends a = true → SplitAfter ends rest parts →
      SplitAfter ends (part ++ a :: rest) ((part ++ [a]) :: parts)

section SplitAfter

variable {α : Type} {ends : α → Bool}

theorem splitAfter_pieces (ends : α → Bool) (list : List α) :
    SplitAfter ends list (pieces ends list) := by
  have hSplit := List.takeWhile_append_dropWhile (p := fun a => !ends a) (l := list)
  have hPart : ∀ a ∈ list.takeWhile (fun a => !ends a), ends a = false := by
    intro a ha
    simpa using List.all_eq_true.mp List.all_takeWhile a ha
  cases hRest : list.dropWhile (fun a => !ends a) with
  | nil =>
    rw [hRest, List.append_nil] at hSplit
    rw [hSplit] at hPart
    cases list with
    | nil => exact .nil
    | cons a list =>
      rw [pieces_of_forall (List.cons_ne_nil a list) hPart]
      exact .last (List.cons_ne_nil a list) hPart
  | cons a rest =>
    have hEnds : ends a = true := by
      have hNot := List.head?_dropWhile_not (fun a => !ends a) list
      rw [hRest] at hNot
      simpa using hNot
    have hLength : rest.length < list.length := by
      rw [← hSplit, hRest, List.length_append, List.length_cons]
      omega
    rw [hRest] at hSplit
    rw [← hSplit, pieces_append_cons hPart hEnds]
    exact .cons hPart hEnds (splitAfter_pieces ends rest)
termination_by list.length

theorem SplitAfter.eq_pieces {list : List α} {parts : List (List α)} (h : SplitAfter ends list parts) :
    pieces ends list = parts := by
  induction h with
  | nil => rfl
  | last hPart hNone => exact pieces_of_forall hPart hNone
  | cons hNone hEnds _ ih => rw [pieces_append_cons hNone hEnds, ih]

theorem SplitAfter.flatten {list : List α} {parts : List (List α)} (h : SplitAfter ends list parts) :
    parts.flatten = list := by
  induction h with
  | nil => rfl
  | last _ _ => simp
  | cons _ _ _ ih => simp [ih]

theorem SplitAfter.forall_dropLast {list : List α} {parts : List (List α)}
    (h : SplitAfter ends list parts) : ∀ part ∈ parts, ∀ a ∈ part.dropLast, ends a = false := by
  induction h with
  | nil => simp
  | last _ hNone =>
    intro part hMem a ha
    obtain rfl := List.mem_singleton.mp hMem
    exact hNone a ((List.dropLast_sublist _).subset ha)
  | cons hNone _ _ ih =>
    intro part hMem a ha
    rcases List.mem_cons.mp hMem with rfl | hRest
    · rw [List.dropLast_concat] at ha
      exact hNone a ha
    · exact ih part hRest a ha

/-- Parts that another one follows are complete, and so they are the parts of what they hold. -/
theorem SplitAfter.front {list part : List α} {front rest : List (List α)}
    (h : SplitAfter ends list (front ++ part :: rest)) : SplitAfter ends front.flatten front := by
  induction front generalizing list with
  | nil => exact .nil
  | cons first front ih =>
    rw [List.cons_append] at h
    generalize hParts : front ++ part :: rest = parts at h
    cases h with
    | last _ _ => simp at hParts
    | @cons before behind a _ hNone hEnds hRest =>
      subst hParts
      rw [List.flatten_cons, List.append_assoc]
      exact .cons hNone hEnds (ih hRest)

end SplitAfter

def encode (text : String) : List UInt8 := text.toUTF8.data.toList

theorem encode_ofList (text : List Char) :
    encode (String.ofList text) = text.flatMap String.utf8EncodeChar := by
  rw [encode, String.toUTF8_eq_toByteArray, String.toByteArray_ofList]
  simp [List.utf8Encode]

theorem fromUTF8?_eq_some_iff {bytes : List UInt8} {text : String} :
    String.fromUTF8? ⟨bytes.toArray⟩ = some text ↔ encode text = bytes := by
  constructor
  · intro h
    unfold String.fromUTF8? at h
    split at h
    · cases h
      rfl
    · cases h
  · rintro rfl
    have hBytes : (⟨(encode text).toArray⟩ : ByteArray) = text.toByteArray := rfl
    rw [hBytes, String.fromUTF8?, dif_pos text.isValidUTF8]
    rfl

theorem newline_notMem_utf8EncodeChar {c : Char} (h : c ≠ '\n') : 10 ∉ String.utf8EncodeChar c := by
  have hValue : c.val.toNat ≠ 10 := by
    intro hTen
    exact h (Char.ext (UInt32.toNat_inj.mp hTen))
  fun_cases String.utf8EncodeChar c
  all_goals
    simp only [List.mem_cons, List.not_mem_nil, or_false, ← UInt8.toNat_inj, UInt8.toNat_ofNat',
      Nat.reducePow]
    simp only [UInt8.reduceToNat]
    omega

theorem SplitAfter.encode {text : List Char} {lines : List (List Char)}
    (h : SplitAfter (· == '\n') text lines) :
    SplitAfter (· == 10) (text.flatMap String.utf8EncodeChar)
      (lines.map fun line => line.flatMap String.utf8EncodeChar) := by
  have hNone : ∀ part : List Char, (∀ c ∈ part, (c == '\n') = false) →
      ∀ b ∈ part.flatMap String.utf8EncodeChar, (b == 10) = false := by
    intro part hPart b hb
    obtain ⟨c, hc, hMem⟩ := List.mem_flatMap.mp hb
    have hOther : c ≠ '\n' := by simpa using hPart c hc
    refine beq_eq_false_iff_ne.mpr ?_
    rintro rfl
    exact newline_notMem_utf8EncodeChar hOther hMem
  induction h with
  | nil => exact .nil
  | @last part hPart hAll =>
    refine .last ?_ (hNone part hAll)
    simpa [List.flatMap_eq_nil_iff, ← List.eq_nil_iff_forall_not_mem] using hPart
  | @cons part rest a parts hAll hEnds _ ih =>
    obtain rfl : a = '\n' := by simpa using hEnds
    have hNewline : String.utf8EncodeChar '\n' = [10] := rfl
    simp only [List.map_cons, List.flatMap_append, List.flatMap_cons, List.flatMap_nil, hNewline]
    exact .cons (hNone part hAll) rfl ih

/-- The lines of a text's bytes are the bytes of its lines. -/
theorem byteLines_encode (text : String) : byteLines (encode text) =
    (pieces (· == '\n') text.toList).map fun line => encode (String.ofList line) := by
  have hSplit := (splitAfter_pieces (· == '\n') text.toList).encode.eq_pieces
  rw [← encode_ofList, String.ofList_toList] at hSplit
  rw [byteLines, hSplit]
  simp only [encode_ofList]

theorem occurs_iff {word text : List Char} : occurs word text = true ↔ word <:+: text := by
  induction text with
  | nil => simp [occurs, List.isEmpty_iff]
  | cons c text ih => simp [occurs, ih, List.infix_cons_iff]

theorem stripEnding_eq_iff {line source : List Char} : stripEnding line = source ↔
    (∃ ending, line = source ++ ending ∧ ∀ c ∈ ending, c = '\r' ∨ c = '\n') ∧
      ∀ c ∈ source.getLast?, c ≠ '\r' ∧ c ≠ '\n' := by
  have hEnding : ∀ c, (c == '\n' || c == '\r') = true ↔ c = '\r' ∨ c = '\n' := by
    intro c
    simp [or_comm]
  constructor
  · rintro rfl
    refine ⟨⟨(line.reverse.takeWhile fun c => c == '\n' || c == '\r').reverse, ?_, ?_⟩, ?_⟩
    · rw [stripEnding, ← List.reverse_append, List.takeWhile_append_dropWhile, List.reverse_reverse]
    · intro c hc
      rw [← hEnding]
      exact List.all_eq_true.mp List.all_takeWhile c (List.mem_reverse.mp hc)
    · intro c hc
      rw [stripEnding, List.getLast?_reverse] at hc
      have hNot := List.head?_dropWhile_not (fun c => c == '\n' || c == '\r') line.reverse
      rw [hc] at hNot
      have hNeither : ¬(c = '\r' ∨ c = '\n') := by
        rw [← hEnding]
        simpa using hNot
      exact not_or.mp hNeither
  · rintro ⟨⟨ending, rfl, hAll⟩, hLast⟩
    have hPos : ∀ c ∈ ending.reverse, (c == '\n' || c == '\r') = true := by
      intro c hc
      exact (hEnding c).mpr (hAll c (List.mem_reverse.mp hc))
    rw [stripEnding, List.reverse_append, List.dropWhile_append_of_pos hPos,
      List.reverse_eq_iff]
    rw [← List.head?_reverse] at hLast
    cases hSource : source.reverse with
    | nil => rfl
    | cons c rest =>
      obtain ⟨hReturn, hNewline⟩ := hLast c (by rw [hSource]; rfl)
      exact List.dropWhile_cons_of_neg (by simp [hReturn, hNewline])

theorem exists_ending_of_chopNewline (line : List Char) :
    ∃ ending, line = chopNewline line ++ ending ∧ ∀ c ∈ ending, c = '\r' ∨ c = '\n' := by
  unfold chopNewline
  split
  · rename_i rest hReverse
    refine ⟨['\r', '\n'], ?_, by simp⟩
    rw [← List.reverse_reverse line, hReverse]
    simp
  · rename_i rest _ hReverse
    refine ⟨['\n'], ?_, by simp⟩
    rw [← List.reverse_reverse line, hReverse]
    simp
  · exact ⟨[], by simp, by simp⟩

theorem newline_notMem_chopNewline {line : List Char}
    (h : ∀ c ∈ line.dropLast, (c == '\n') = false) : '\n' ∉ chopNewline line := by
  have hLine : ∀ c rest, line.reverse = c :: rest → line = rest.reverse ++ [c] := by
    intro c rest hReverse
    rw [← List.reverse_reverse line, hReverse, List.reverse_cons]
  unfold chopNewline
  split
  · rename_i rest hReverse
    rw [hLine _ _ hReverse, List.dropLast_concat] at h
    intro hMem
    cases h '\n' (by simpa using hMem)
  · rename_i rest _ hReverse
    rw [hLine _ _ hReverse, List.dropLast_concat] at h
    intro hMem
    cases h '\n' hMem
  · rename_i hOther
    intro hMem
    cases hReverse : line.reverse with
    | nil =>
      rw [List.reverse_eq_nil_iff.mp hReverse] at hMem
      cases hMem
    | cons c rest =>
      have hConcat := hLine c rest hReverse
      rw [hConcat, List.dropLast_concat] at h
      rw [hConcat] at hMem
      rcases List.mem_append.mp hMem with hFront | hLast
      · cases h '\n' hFront
      · obtain rfl := List.mem_singleton.mp hLast
        exact hOther rest hReverse

theorem newline_notMem_of_mem_fileLines {text line : List Char} (h : line ∈ fileLines text) :
    '\n' ∉ line := by
  obtain ⟨piece, hPiece, rfl⟩ := List.mem_map.mp h
  exact newline_notMem_chopNewline ((splitAfter_pieces _ text).forall_dropLast piece hPiece)

end Reckoner.Text
