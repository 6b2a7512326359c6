import Reckoner.Proofs.Scanning.Resumption

/-! # Reading one character ahead

A reader goes through a text with one character in hand. It takes the next character out of the text to
see whether a run goes on, keeps that character until it is consumed, and marks what has been consumed by
two offsets counted in bytes: where the current word began, and where it has come to. The word is then cut
out of the text between the offsets, and this can fail, since a character may take up to four bytes.
Whatever has been scanned before, illegal characters included, the offsets stand between characters and the
cut is what was consumed since the word began; and a reader finds what a scanner finds.
-/
namespace Reckoner
set_option autoImplicit false

open Alphabet

structure Reader where
  text : String
  /-- The characters not yet taken out of the text. -/
  rest : List Char
  ahead : Option Char := none
  start : Nat := 0
  offset : Nat := 0
  startPosition : Position := .first
  position : Position := .first

namespace Reader

def ofText (source : String) : Reader := { text := source, rest := source.toList }

def peek (r : Reader) : Option Char × Reader :=
  match r.ahead with
  | some c => (some c, r)
  | none => (r.rest.head?, { r with ahead := r.rest.head?, rest := r.rest.tail })

def past (r : Reader) (c : Char) : Reader :=
  { r with offset := r.offset + c.utf8Size, position := r.position.advance c }

def consume (r : Reader) : Option Char × Reader :=
  match r.ahead, r.rest with
  | some c, _ => (some c, { r with ahead := none }.past c)
  | none, c :: rest => (some c, { r with rest := rest }.past c)
  | none, [] => (none, r)

/-- The characters not consumed yet, the one ahead included. -/
def remaining (r : Reader) : List Char := r.ahead.toList ++ r.rest

theorem length_consume_peek {r r' : Reader} {c : Char} (h : r.peek = (some c, r')) :
    r'.consume.2.remaining.length < r.remaining.length := by
  rcases r with ⟨text, rest, ahead, start, offset, startPosition, position⟩
  cases ahead with
  | some d =>
    cases h
    simp [consume, past, remaining]
  | none =>
    cases rest with
    | nil => cases h
    | cons d rest =>
      cases h
      simp [consume, past, remaining]

/-- Consumes characters for as long as the one ahead passes the test. -/
def consumeWhile (p : Char → Bool) (r : Reader) : Reader :=
  match h : r.peek with
  | (some c, r') =>
    have := length_consume_peek h
    if p c then r'.consume.2.consumeWhile p else r'
  | (none, r') => r'
termination_by r.remaining.length

theorem consumeWhile_eq (p : Char → Bool) (r : Reader) : r.consumeWhile p =
    match r.peek with
    | (some c, r') => if p c then r'.consume.2.consumeWhile p else r'
    | (none, r') => r' := by
  rw [consumeWhile]
  split <;> simp_all

/-- What stands in the text between the two offsets. There is nothing to cut out unless both of them are
between characters, in this order. -/
def cut? (r : Reader) : Option String := do
  let first ← r.text.pos? ⟨r.start⟩
  let last ← r.text.pos? ⟨r.offset⟩
  let word ← r.text.slice? first last
  return word.copy

def token? (r : Reader) (kind : Token.Kind) : Option Token := do
  return ⟨kind, ← r.cut?, r.startPosition, r.position⟩

def mark (r : Reader) : Reader := { r with start := r.offset, startPosition := r.position }

/-- Goes on behind the first character of a word. There is no outcome when a cut fails. -/
def word? (r : Reader) (c : Char) : Option (Except ScanError Token × Reader) :=
  match Token.Kind.ofMark? c with
  | some kind => do return (.ok (← r.token? kind), r)
  | none =>
    if isDigit c then do
      let r := r.consumeWhile isDigit
      return (.ok (← r.token? .number), r)
    else if isLetter c then do
      let r := r.consumeWhile isLetter
      let name ← r.cut?
      return (.ok (← r.token? (.ofWord name.toList)), r)
    else some (.error ⟨r.startPosition, c⟩, r)

/-- Takes the word, the illegal character or the end that begins here. -/
def take? (r : Reader) : Option (Except ScanError Token × Reader) :=
  match r.consume with
  | (none, r) => some (.ok ⟨.endOfInput, "EndOfFile", r.startPosition, r.position⟩, r)
  | (some c, r) => r.word? c

def next? (r : Reader) : Option (Except ScanError Token × Reader) :=
  (r.consumeWhile isBlank).mark.take?

/-- The results of so many scans, and the reader behind them. -/
def scans? : Nat → Reader → Option (List (Except ScanError Token) × Reader)
  | 0, r => some ([], r)
  | n + 1, r => do
    let (result, r) ← r.next?
    let (results, r) ← scans? n r
    return (result :: results, r)

/-- Scans up to the closing token, in so many turns at most. -/
def tokens? : Nat → Reader → Array Token → Option (Except ScanError (List Token))
  | 0, _, _ => none
  | turns + 1, r, done => do
    match ← r.next? with
    | (.error e, _) => return .error e
    | (.ok t, r) => if t.isEnd then return .ok (done.push t).toList else tokens? turns r (done.push t)

/-- The scanner at the same place. -/
def scanner (r : Reader) : Scanner := ⟨r.remaining, r.position⟩

/-- The text is what was consumed before the current word, the word, and what remains; the offsets are the
byte counts of the first part and of the first two. -/
structure Keeps (r : Reader) (before word : List Char) : Prop where
  text : r.text.toList = before ++ word ++ r.remaining
  start : r.start = (String.ofList before).utf8ByteSize
  offset : r.offset = (String.ofList (before ++ word)).utf8ByteSize

/-- From one reader to the other the characters are consumed. -/
structure Consumes (r : Reader) (chars : List Char) (r' : Reader) : Prop where
  text : r'.text = r.text
  remaining : r.remaining = chars ++ r'.remaining
  start : r'.start = r.start
  offset : r'.offset = r.offset + (String.ofList chars).utf8ByteSize
  startPosition : r'.startPosition = r.startPosition
  position : r'.position = r.position.after chars

variable {r r' r'' : Reader} {before word chars chars' : List Char}

theorem Consumes.trans (h : r.Consumes chars r') (h' : r'.Consumes chars' r'') :
    r.Consumes (chars ++ chars') r'' where
  text := h'.text.trans h.text
  remaining := by rw [h.remaining, h'.remaining, List.append_assoc]
  start := h'.start.trans h.start
  offset := by
    rw [h'.offset, h.offset, String.ofList_append, String.utf8ByteSize_append]
    omega
  startPosition := h'.startPosition.trans h.startPosition
  position := by rw [h'.position, h.position, Position.after_append]

theorem Keeps.consumes (h : r.Keeps before word) (h' : r.Consumes chars r') :
    r'.Keeps before (word ++ chars) where
  text := by
    rw [h'.text, h.text, h'.remaining]
    simp
  start := h'.start.trans h.start
  offset := by
    have hSize : (String.ofList (before ++ (word ++ chars))).utf8ByteSize =
        (String.ofList (before ++ word)).utf8ByteSize + (String.ofList chars).utf8ByteSize := by
      rw [← List.append_assoc, String.ofList_append, String.utf8ByteSize_append]
    rw [h'.offset, h.offset, hSize]

theorem Keeps.mark (h : r.Keeps before word) : r.mark.Keeps (before ++ word) [] where
  text := by
    rw [List.append_nil]
    exact h.text
  start := h.offset
  offset := by
    rw [List.append_nil]
    exact h.offset

theorem keeps_ofText (source : String) : (ofText source).Keeps [] [] :=
  ⟨rfl, rfl, rfl⟩

theorem consumes_peek (r : Reader) : ∃ r', r.peek = (r.remaining.head?, r') ∧ r.Consumes [] r' := by
  rcases r with ⟨text, rest, ahead, start, offset, startPosition, position⟩
  cases ahead with
  | some c => exact ⟨_, rfl, rfl, rfl, rfl, rfl, rfl, rfl⟩
  | none =>
    cases rest with
    | nil => exact ⟨_, rfl, rfl, rfl, rfl, rfl, rfl, rfl⟩
    | cons c rest => exact ⟨_, rfl, rfl, rfl, rfl, rfl, rfl, rfl⟩

theorem consume_nil (h : r.remaining = []) : r.consume = (none, r) := by
  rcases r with ⟨text, rest, ahead, start, offset, startPosition, position⟩
  cases ahead with
  | some c => cases h
  | none =>
    obtain rfl : rest = [] := h
    rfl

theorem exists_consume {c : Char} {behind : List Char} (h : r.remaining = c :: behind) :
    ∃ r', r.consume = (some c, r') ∧ r.Consumes [c] r' ∧ r'.remaining = behind := by
  have hSize : (String.ofList [c]).utf8ByteSize = c.utf8Size := by
    rw [← String.singleton_eq_ofList, String.utf8ByteSize_singleton]
  rcases r with ⟨text, rest, ahead, start, offset, startPosition, position⟩
  cases ahead with
  | some c' =>
    obtain ⟨rfl, rfl⟩ := List.cons.inj h
    exact ⟨_, rfl, ⟨rfl, rfl, rfl, by rw [hSize]; rfl, rfl, rfl⟩, rfl⟩
  | none =>
    obtain rfl : rest = c :: behind := h
    exact ⟨_, rfl, ⟨rfl, rfl, rfl, by rw [hSize]; rfl, rfl, rfl⟩, rfl⟩

/-- The loop takes the characters that pass the test, and there it stops. -/
theorem consumes_consumeWhile (p : Char → Bool) (r : Reader) :
    r.Consumes (r.remaining.takeWhile p) (r.consumeWhile p) ∧
      (r.consumeWhile p).remaining = r.remaining.dropWhile p := by
  induction hLength : r.remaining.length using Nat.strongRecOn generalizing r with
  | ind size ih =>
    obtain ⟨r₁, hPeek, hConsumes₁⟩ := consumes_peek r
    have hSame : r.remaining = r₁.remaining := hConsumes₁.remaining
    rw [consumeWhile_eq, hPeek]
    cases hRemaining : r.remaining with
    | nil =>
      refine ⟨hConsumes₁, ?_⟩
      change r₁.remaining = []
      rw [← hSame, hRemaining]
    | cons c behind =>
      rw [hRemaining] at hSame
      simp only [List.head?_cons]
      by_cases hTest : p c = true
      · obtain ⟨r₂, hConsume, hConsumes₂, hBehind⟩ := exists_consume hSame.symm
        have hShorter : r₂.remaining.length < size := by
          rw [hBehind, ← hLength, hRemaining, List.length_cons]
          omega
        obtain ⟨hConsumes₃, hStop⟩ := ih r₂.remaining.length hShorter r₂ rfl
        rw [hBehind] at hConsumes₃ hStop
        rw [if_pos hTest, hConsume, List.takeWhile_cons_of_pos hTest, List.dropWhile_cons_of_pos hTest]
        exact ⟨(hConsumes₁.trans hConsumes₂).trans hConsumes₃, hStop⟩
      · rw [if_neg hTest, List.takeWhile_cons_of_neg hTest, List.dropWhile_cons_of_neg hTest]
        exact ⟨hConsumes₁, hSame.symm⟩

theorem pos?_of_isValid {text : String} {offset : String.Pos.Raw} (h : offset.IsValid text) :
    text.pos? offset = some (text.pos offset h) := by
  rw [String.pos?, String.Slice.pos?, dif_pos (String.Pos.Raw.isValidForSlice_eq_true_iff.mpr h.toSlice)]
  rfl

namespace Keeps

variable (h : r.Keeps before word)
include h

theorem text_eq : r.text = String.ofList before ++ (String.ofList word ++ String.ofList r.remaining) := by
  rw [← String.ofList_append, ← String.ofList_append, ← List.append_assoc, ← h.text,
    String.ofList_toList]

theorem isValid_start : (⟨r.start⟩ : String.Pos.Raw).IsValid r.text := by
  refine String.Pos.Raw.isValid_iff_exists_append.mpr ⟨_, _, h.text_eq, ?_⟩
  rw [h.start]
  rfl

theorem isValid_offset : (⟨r.offset⟩ : String.Pos.Raw).IsValid r.text := by
  refine String.Pos.Raw.isValid_iff_exists_append.mpr
    ⟨_, _, h.text_eq.trans (String.append_assoc ..).symm, ?_⟩
  rw [h.offset, String.ofList_append]
  rfl

theorem start_le : r.start ≤ r.offset := by
  rw [h.start, h.offset, String.ofList_append, String.utf8ByteSize_append]
  exact Nat.le_add_right _ _

/-- The cut gives the characters consumed since the word began. -/
theorem cut?_eq : r.cut? = some (String.ofList word) := by
  have hFirst : (r.text.pos ⟨r.start⟩ h.isValid_start).Splits (String.ofList before)
      (String.ofList word ++ String.ofList r.remaining) :=
    ⟨h.text_eq, congrArg String.Pos.Raw.mk h.start⟩
  have hLast : (r.text.pos ⟨r.offset⟩ h.isValid_offset).Splits
      (String.ofList before ++ String.ofList word) (String.ofList r.remaining) := by
    refine ⟨h.text_eq.trans (String.append_assoc ..).symm, ?_⟩
    rw [← String.ofList_append]
    exact congrArg String.Pos.Raw.mk h.offset
  obtain ⟨hLe, hCopy⟩ := String.copy_slice_eq_iff_splits.mpr ⟨_, _, hFirst, hLast⟩
  rw [cut?, pos?_of_isValid h.isValid_start, pos?_of_isValid h.isValid_offset]
  simp only [Option.bind_eq_bind, Option.bind_some, String.slice?, dif_pos hLe, hCopy]
  rfl

theorem token?_eq (kind : Token.Kind) :
    r.token? kind = some ⟨kind, String.ofList word, r.startPosition, r.position⟩ := by
  rw [token?, h.cut?_eq]
  rfl

end Keeps

/-- What comes of a scan, the characters that it took behind the blanks, and the reader it leaves. -/
inductive Gives (r : Reader) : Except ScanError Token → List Char → Reader → Prop where
  | word {kind : Token.Kind} {word : List Char} {r' : Reader} : r.Consumes word r' → word ≠ [] →
      Gives r (.ok ⟨kind, String.ofList word, r.position, r'.position⟩) word r'
  | illegal {c : Char} {r' : Reader} : r.Consumes [c] r' → Gives r (.error ⟨r.position, c⟩) [c] r'
  | closed : r.remaining = [] → Gives r (.ok (.endAt r.position)) [] r

theorem scanner_take_of_munch? {c : Char} {behind : List Char} {kind : Token.Kind}
    (hRemaining : r.remaining = c :: behind) (hConsumes : r.Consumes word r')
    (hMunch : munch? c behind = some (kind, word, r'.remaining)) :
    r.scanner.take = (.ok ⟨kind, String.ofList word, r.position, r'.position⟩, r'.scanner) := by
  simp only [scanner, Scanner.take, hRemaining, hMunch, hConsumes.position]

theorem munch?_of_ofMark? {c : Char} {kind : Token.Kind} (h : Token.Kind.ofMark? c = some kind)
    (behind : List Char) : munch? c behind = some (kind, [c], behind) := by
  obtain ⟨hFits, hGrows⟩ := Token.Kind.fits_ofMark? h
  refine munch?_of_fits rfl hFits ?_
  rw [Token.Kind.Stops, hGrows]
  exact fun _ _ => rfl

/-- The beginning of a word: nothing of it is consumed, and both positions are where it begins. -/
structure Begins (r : Reader) (before : List Char) : Prop extends r.Keeps before [] where
  startPosition : r.startPosition = r.position

theorem Begins.token?_eq (h : r.Begins before) (hConsumes : r.Consumes word r') (kind : Token.Kind) :
    r'.token? kind = some ⟨kind, String.ofList word, r.position, r'.position⟩ := by
  have hToken := (h.toKeeps.consumes hConsumes).token?_eq kind
  rw [hConsumes.startPosition, h.startPosition] at hToken
  exact hToken

theorem exists_word? {c : Char} {r₁ : Reader} (h : r.Begins before) (hConsumes : r.Consumes [c] r₁) :
    ∃ result word r', r₁.word? c = some (result, r') ∧ r.scanner.take = (result, r'.scanner) ∧
      r.Gives result word r' := by
  have hRemaining : r.remaining = c :: r₁.remaining := hConsumes.remaining
  rw [word?]
  cases hKind : Token.Kind.ofMark? c with
  | some kind =>
    refine ⟨_, _, r₁, ?_, scanner_take_of_munch? hRemaining hConsumes (munch?_of_ofMark? hKind _),
      .word hConsumes (by simp)⟩
    simp only [h.token?_eq hConsumes]
    rfl
  | none =>
    dsimp only
    by_cases hDigit : isDigit c = true
    · rw [if_pos hDigit]
      obtain ⟨hRun, hStop⟩ := consumes_consumeWhile isDigit r₁
      have hWord := hConsumes.trans hRun
      have hMunch : munch? c r₁.remaining =
          some (.number, [c] ++ r₁.remaining.takeWhile isDigit,
            (r₁.consumeWhile isDigit).remaining) := by
        rw [munch?, if_pos hDigit, hStop]
        rfl
      refine ⟨_, _, _, ?_, scanner_take_of_munch? hRemaining hWord hMunch, .word hWord (by simp)⟩
      simp only [h.token?_eq hWord]
      rfl
    rw [if_neg hDigit]
    by_cases hLetter : isLetter c = true
    · rw [if_pos hLetter]
      obtain ⟨hRun, hStop⟩ := consumes_consumeWhile isLetter r₁
      have hWord := hConsumes.trans hRun
      have hMunch : munch? c r₁.remaining =
          some (.ofWord ([c] ++ r₁.remaining.takeWhile isLetter),
            [c] ++ r₁.remaining.takeWhile isLetter, (r₁.consumeWhile isLetter).remaining) := by
        rw [munch?, if_neg hDigit, if_pos hLetter, hStop]
        rfl
      have hCut := (h.toKeeps.consumes hWord).cut?_eq
      refine ⟨_, _, _, ?_, scanner_take_of_munch? hRemaining hWord hMunch, .word hWord (by simp)⟩
      simp only [hCut, h.token?_eq hWord, List.nil_append, Option.bind_eq_bind, Option.bind_some,
        String.toList_ofList]
      rfl
    · rw [if_neg hLetter]
      have hMunch : munch? c r₁.remaining = none := by
        rw [munch?, if_neg hDigit, if_neg hLetter, hKind]
        rfl
      refine ⟨_, _, r₁, ?_, ?_, .illegal hConsumes⟩
      · rw [hConsumes.startPosition, h.startPosition]
      · simp only [scanner, Scanner.take, hRemaining, hMunch, hConsumes.position]
        rfl

theorem exists_take? (h : r.Begins before) :
    ∃ result word r', r.take? = some (result, r') ∧ r.scanner.take = (result, r'.scanner) ∧
      r.Gives result word r' := by
  cases hRemaining : r.remaining with
  | nil =>
    refine ⟨.ok (.endAt r.position), [], r, ?_, ?_, .closed hRemaining⟩
    · simp only [take?, consume_nil hRemaining, h.startPosition]
      rfl
    · simp only [scanner, Scanner.take, hRemaining]
  | cons c behind =>
    obtain ⟨r₁, hConsume, hConsumes, _⟩ := exists_consume hRemaining
    rw [take?, hConsume]
    exact exists_word? h hConsumes

theorem Gives.consumes {result : Except ScanError Token} (h : r.Gives result word r') :
    r.Consumes word r' := by
  cases h with
  | word hConsumes _ => exact hConsumes
  | illegal hConsumes => exact hConsumes
  | closed _ => exact ⟨rfl, rfl, rfl, rfl, rfl, rfl⟩

/-- A scan goes over blanks and then takes a word, whose text is the lexeme, or an illegal character; only
at the end of the text it takes nothing. -/
structure Scans (r : Reader) (result : Except ScanError Token) (blanks word : List Char) (r' : Reader) :
    Prop where
  text : r'.text = r.text
  remaining : r.remaining = blanks ++ word ++ r'.remaining
  lexeme : ∀ t, result = .ok t → t.isEnd = false → t.lexeme = String.ofList word
  progress : word ≠ [] ∨ result = .ok (.endAt r'.position) ∧ r'.remaining = []

theorem Gives.scans {result : Except ScanError Token} {blanks : List Char}
    (hBlanks : r.Consumes blanks r') (h : r'.mark.Gives result word r'') :
    r.Scans result blanks word r'' where
  text := h.consumes.text.trans hBlanks.text
  remaining := by
    have hWord : r'.remaining = word ++ r''.remaining := h.consumes.remaining
    rw [hBlanks.remaining, hWord, List.append_assoc]
  lexeme := by
    rintro t rfl hOpen
    cases h with
    | word _ _ => rfl
    | closed _ => cases hOpen
  progress := by
    cases h with
    | word _ hWord => exact .inl hWord
    | illegal _ => exact .inl (by simp)
    | closed hRemaining => exact .inr ⟨rfl, hRemaining⟩

/-- One scan gives what the scanner at the same place gives, and comes to where the scanner comes. -/
theorem exists_next? (h : r.Keeps before word) :
    ∃ result blanks word' r', r.next? = some (result, r') ∧ r.scanner.next = (result, r'.scanner) ∧
      r'.Keeps (before ++ word ++ blanks) word' ∧ r.Scans result blanks word' r' := by
  obtain ⟨hBlanks, hStop⟩ := consumes_consumeWhile isBlank r
  have hKeeps := (h.consumes hBlanks).mark
  rw [← List.append_assoc] at hKeeps
  obtain ⟨result, word', r', hTake, hScanner, hGives⟩ := exists_take? ⟨hKeeps, rfl⟩
  refine ⟨result, _, word', r', hTake, ?_, hKeeps.consumes hGives.consumes, hGives.scans hBlanks⟩
  have hSkip : r.scanner.skipBlanks = (r.consumeWhile isBlank).mark.scanner :=
    congrArg₂ Scanner.mk hStop.symm hBlanks.position.symm
  rw [Scanner.next, hSkip, hScanner]

theorem exists_scans? (n : Nat) (h : r.Keeps before word) :
    ∃ r' before' word', scans? n r = some ((Scanner.scans n r.scanner #[]).toList, r') ∧
      r'.text = r.text ∧ r'.Keeps before' word' := by
  induction n generalizing r before word with
  | zero => exact ⟨r, before, word, rfl, rfl, h⟩
  | succ n ih =>
    obtain ⟨result, blanks, word₁, r₁, hNext, hScanner, hKeeps, hScans⟩ := exists_next? h
    obtain ⟨r', before', word', hLater, hText, hKeeps'⟩ := ih hKeeps
    refine ⟨r', before', word', ?_, hText.trans hScans.text, hKeeps'⟩
    rw [scans?, hNext, Scanner.toList_scans_succ, hScanner]
    simp only [Option.bind_eq_bind, Option.bind_some, hLater]
    rfl

/-- Every token takes characters from those that remain, so that the turns suffice. -/
theorem tokens?_eq {turns : Nat} (h : r.Keeps before word) (hTurns : r.remaining.length < turns)
    (done : Array Token) : tokens? turns r done = some (r.scanner.tokensFrom done) := by
  induction turns generalizing r before word done with
  | zero => cases hTurns
  | succ turns ih =>
    obtain ⟨result, blanks, word', r', hNext, hScanner, hKeeps, hScans⟩ := exists_next? h
    rw [tokens?, hNext, Scanner.tokensFrom_eq, hScanner]
    cases result with
    | error e => rfl
    | ok t =>
      simp only [Option.bind_eq_bind, Option.bind_some]
      by_cases hEnd : t.isEnd = true
      · rw [if_pos hEnd, if_pos hEnd]
        rfl
      · rw [if_neg hEnd, if_neg hEnd]
        have hWord : word' ≠ [] := by
          rcases hScans.progress with hWord | ⟨hClosed, _⟩
          · exact hWord
          · cases hClosed
            exact absurd rfl hEnd
        have hShorter : r'.remaining.length < r.remaining.length := by
          have hPositive := List.length_pos_iff.mpr hWord
          rw [hScans.remaining, List.length_append, List.length_append]
          omega
        exact ih hKeeps (by omega) (done.push t)

end Reader

/-- Whatever has been scanned of a source, and with whatever results, a reader has lost nothing: the source
is what was consumed, the character ahead, and the rest. Both offsets stand between characters of the source,
the earlier one first, and the cut between them is what was consumed since the word began. The results up to
there are those of the scanner. A further scan has an outcome: it takes a word or an illegal character, or it
finds the closing token with nothing remaining. So tokenising comes to an end after no more turns than the
source has characters, and one, with what the scanner finds. -/
theorem reader_cuts_between_characters (source : String) :
    (∀ n, ∃ r before word,
      Reader.scans? n (.ofText source) = some ((Scanner.scans n (.ofText source) #[]).toList, r) ∧
      r.text = source ∧ r.Keeps before word ∧ r.start ≤ r.offset ∧
      (⟨r.start⟩ : String.Pos.Raw).IsValid source ∧ (⟨r.offset⟩ : String.Pos.Raw).IsValid source ∧
      r.cut? = some (String.ofList word) ∧
      ∃ result blanks word' r', r.next? = some (result, r') ∧
        r'.Keeps (before ++ word ++ blanks) word' ∧ r.Scans result blanks word' r') ∧
    ∀ turns, source.length < turns →
      Reader.tokens? turns (.ofText source) #[] = some (tokenize source) := by
  have hStart := Reader.keeps_ofText source
  refine ⟨fun n => ?_, fun turns hTurns => Reader.tokens?_eq hStart ?_ #[]⟩
  case refine_2 =>
    change source.toList.length < turns
    rwa [String.length_toList]
  obtain ⟨r, before, word, hScans, hText, hKeeps⟩ := Reader.exists_scans? n hStart
  have hText : r.text = source := hText
  obtain ⟨result, blanks, word', r', hNext, _, hKeeps', hScan⟩ := Reader.exists_next? hKeeps
  refine ⟨r, before, word, hScans, hText, hKeeps, hKeeps.start_le, ?_, ?_, hKeeps.cut?_eq,
    result, blanks, word', r', hNext, hKeeps', hScan⟩
  · rw [← hText]
    exact hKeeps.isValid_start
  · rw [← hText]
    exact hKeeps.isValid_offset

end Reckoner
