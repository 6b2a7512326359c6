import Reckoner.Alphabet
import Reckoner.Token

/-! # Scanning

A scanner holds the text that is still to be read and the position reached. One scan skips blanks and
then takes the longest word there is: a run of digits, a run of letters, or a single mark. An illegal
character is taken as well and reported, so scanning can go on behind it; at the end of the text every
scan gives the closing token. Tokenising scans up to the closing token or the first illegal character.
-/
namespace Reckoner
set_option autoImplicit false

open Alphabet

structure ScanError where
  position : Position
  character : Char
deriving DecidableEq, Repr

def ScanError.message (e : ScanError) : String :=
  e.position.render ++ " Unexpected character '" ++ e.character.toString ++ "'"

/-- The longest word that starts with `c` and goes on into `text`: its kind, its characters, and the
text behind it. An illegal character starts no word. -/
def munch? (c : Char) (text : List Char) : Option (Token.Kind × List Char × List Char) :=
  if isDigit c then some (.number, c :: text.takeWhile isDigit, text.dropWhile isDigit)
  else if isLetter c then
    let word := c :: text.takeWhile isLetter
    some (.ofWord word, word, text.dropWhile isLetter)
  else (Token.Kind.ofMark? c).map fun kind => (kind, [c], text)

theorem munch?_append {c : Char} {text word rest : List Char} {kind : Token.Kind}
    (h : munch? c text = some (kind, word, rest)) : c :: text = word ++ rest := by
  unfold munch? at h
  split at h
  · cases h; simp
  split at h
  · cases h; simp
  · obtain ⟨_, _, hEq⟩ := Option.map_eq_some_iff.mp h
    cases hEq; simp

theorem munch?_length {c : Char} {text word rest : List Char} {kind : Token.Kind}
    (h : munch? c text = some (kind, word, rest)) : rest.length ≤ text.length := by
  unfold munch? at h
  split at h
  · cases h; exact (List.dropWhile_sublist _).length_le
  split at h
  · cases h; exact (List.dropWhile_sublist _).length_le
  · obtain ⟨_, _, hEq⟩ := Option.map_eq_some_iff.mp h
    cases hEq; exact Nat.le_refl _

structure Scanner where
  rest : List Char
  position : Position := .first

namespace Scanner

def ofText (source : String) : Scanner := { rest := source.toList }

def skipBlanks (s : Scanner) : Scanner :=
  ⟨s.rest.dropWhile isBlank, s.position.after (s.rest.takeWhile isBlank)⟩

theorem skipBlanks_length (s : Scanner) : s.skipBlanks.rest.length ≤ s.rest.length :=
  (List.dropWhile_sublist _).length_le

/-- Takes the word, the illegal character or the end that a text without leading blanks starts with. -/
def take (s : Scanner) : Except ScanError Token × Scanner :=
  match s.rest with
  | [] => (.ok (.endAt s.position), s)
  | c :: text =>
    match munch? c text with
    | some (kind, word, rest) =>
      let stop := s.position.after word
      (.ok ⟨kind, String.ofList word, s.position, stop⟩, ⟨rest, stop⟩)
    | none => (.error ⟨s.position, c⟩, ⟨text, s.position.advance c⟩)

theorem take_length (s : Scanner) : s.take.2.rest.length < s.rest.length ∨
    s.rest = [] ∧ s.take = (.ok (.endAt s.position), s) := by
  unfold take
  split
  · right; simp_all
  · rename_i c text hRest
    left
    split
    · rename_i kind word rest hMunch
      have := munch?_length hMunch
      simp only [hRest, List.length_cons]
      omega
    · simp [hRest]

def next (s : Scanner) : Except ScanError Token × Scanner := s.skipBlanks.take

theorem next_length {s after : Scanner} {t : Token} (h : s.next = (.ok t, after))
    (hEnd : t.isEnd = false) : after.rest.length < s.rest.length := by
  rcases take_length s.skipBlanks with hLess | ⟨_, hTake⟩
  · have := skipBlanks_length s
    have hAfter : s.skipBlanks.take.2 = after := congrArg Prod.snd h
    rw [hAfter] at hLess
    omega
  · have hNext := h.symm.trans hTake
    cases hNext
    simp at hEnd

/-- Scans up to the closing token, appending to the tokens already read. -/
def tokensFrom (s : Scanner) (done : Array Token) : Except ScanError (List Token) :=
  match h : s.next with
  | (.error e, _) => .error e
  | (.ok t, after) =>
    if hEnd : t.isEnd then .ok (done.push t).toList
    else
      have := next_length h (by simpa using hEnd)
      tokensFrom after (done.push t)
termination_by s.rest.length

theorem tokensFrom_eq (s : Scanner) (done : Array Token) : s.tokensFrom done =
    match s.next with
    | (.error e, _) => .error e
    | (.ok t, after) =>
      if t.isEnd then .ok (done.push t).toList else after.tokensFrom (done.push t) := by
  rw [tokensFrom]
  split <;> simp_all

def scans : Nat → Scanner → Array (Except ScanError Token) → Array (Except ScanError Token)
  | 0, _, done => done
  | count + 1, s, done =>
    let (result, after) := s.next
    scans count after (done.push result)

end Scanner

/-- The tokens of a source, the closing one last, or its first illegal character. -/
def tokenize (source : String) : Except ScanError (List Token) :=
  (Scanner.ofText source).tokensFrom #[]

end Reckoner
