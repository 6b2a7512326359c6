import Reckoner.Failure

/-! # Transcripts

A transcript lists what a run does to the world, in order, and how it ends when every step succeeds.
Runs are computed as transcripts; playing one on streams of limited size performs its effects up to
the first text that does not fit.
-/
namespace Reckoner
set_option autoImplicit false

/-- One effect: bytes taken from the input, text for one of the two outputs, or a log event. -/
inductive Effect where
  | consume (count : Nat)
  | print (text : String)
  | complain (text : String)
  | record (event : Event)
deriving DecidableEq, Repr

structure Transcript (ε α : Type) where
  effects : Array Effect
  result : Except ε α

/-- An output that takes a limited number of bytes, or any number. -/
structure Stream where
  capacity : Option Nat := none
  written : ByteArray := .empty

namespace Stream

def room (s : Stream) : Option Nat := s.capacity.map (· - s.written.size)

/-- Writes as much of a text as fits, and tells whether all of it did. -/
def write (s : Stream) (text : String) : Stream × Bool :=
  let bytes := text.toUTF8
  match s.room with
  | none => ({ s with written := s.written ++ bytes }, true)
  | some room => ({ s with written := s.written ++ bytes.extract 0 room }, bytes.size ≤ room)

/-- The written text. A character that was cut at the limit shows as the replacement character. -/
def text (s : Stream) : String :=
  match String.fromUTF8? s.written with
  | some text => text
  | none =>
    let cuts := [1, 2, 3].map fun count => s.written.extract 0 (s.written.size - count)
    (cuts.findSome? String.fromUTF8?).getD "" ++ "\uFFFD"

end Stream

/-- The two outputs, the log, and how much of the input has been taken. -/
structure Console where
  out : Stream := {}
  err : Stream := {}
  log : Array Event := #[]
  consumed : Nat := 0

namespace Console

def perform (c : Console) : Effect → Console × Bool
  | .consume count => ({ c with consumed := c.consumed + count }, true)
  | .print text =>
    let (out, fits) := c.out.write text
    ({ c with out }, fits)
  | .complain text =>
    let (err, fits) := c.err.write text
    ({ c with err }, fits)
  | .record event => ({ c with log := c.log.push event }, true)

def play : List Effect → Console → Console × Bool
  | [], c => (c, true)
  | effect :: rest, c =>
    match c.perform effect with
    | (c, true) => play rest c
    | (c, false) => (c, false)

theorem play_append (a b : List Effect) (c : Console) :
    play (a ++ b) c = match play a c with
      | (c, true) => play b c
      | (c, false) => (c, false) := by
  induction a generalizing c with
  | nil => rfl
  | cons effect a ih =>
    rw [List.cons_append, play, play]
    rcases c.perform effect with ⟨after, fits⟩
    cases fits
    · rfl
    · exact ih after

end Console

structure Report (α : Type) where
  console : Console
  result : Except Failure α

namespace Transcript

def play {α : Type} (t : Transcript Failure α) (console : Console) : Report α :=
  match console.play t.effects.toList with
  | (console, true) => ⟨console, t.result⟩
  | (console, false) => ⟨console, .error (.stream .full)⟩

def mapError {ε ε' α : Type} (f : ε → ε') (t : Transcript ε α) : Transcript ε' α :=
  ⟨t.effects, t.result.mapError f⟩

end Transcript
end Reckoner
