import Reckoner.Value

/-! # Scopes

A store holds frames; a frame binds names to values and may have a parent, which is always older than
itself. A name is looked up in a frame, then in its parent, and so on outwards; the first frame that
binds it decides. Defining a name concerns one frame alone, assigning to it the frame that decides.
-/
namespace Reckoner
set_option autoImplicit false

inductive ScopeError where
  | duplicate (name : String)
  | undefined (name : String)
deriving DecidableEq, Repr

def ScopeError.message : ScopeError → String
  | duplicate name => "Variable '" ++ name ++ "' already defined in this scope"
  | undefined name => "Undefined variable '" ++ name ++ "'"

/-- The bindings of one frame, in the order of their definition. -/
structure Bindings where
  entries : List (String × Value) := []
deriving Inhabited

namespace Bindings

def seek (name : String) : List (String × Value) → Option Value
  | [] => none
  | (key, value) :: rest => if name = key then some value else seek name rest

/-- Entries with `name` bound to `value`, in its old place if it had one. -/
def put (name : String) (value : Value) : List (String × Value) → List (String × Value)
  | [] => [(name, value)]
  | (key, old) :: rest =>
    if name = key then (key, value) :: rest else (key, old) :: put name value rest

theorem seek_put (name other : String) (value : Value) (entries : List (String × Value)) :
    seek other (put name value entries) =
      if other = name then some value else seek other entries := by
  induction entries with
  | nil => simp [put, seek]
  | cons entry rest ih => grind [put, seek]

def find? (b : Bindings) (name : String) : Option Value := seek name b.entries

def insert (b : Bindings) (name : String) (value : Value) : Bindings := ⟨put name value b.entries⟩

theorem find?_insert (b : Bindings) (name other : String) (value : Value) :
    (b.insert name value).find? other = if other = name then some value else b.find? other :=
  seek_put name other value b.entries

@[simp] theorem find?_insert_self (b : Bindings) (name : String) (value : Value) :
    (b.insert name value).find? name = some value := by
  simp [find?_insert]

end Bindings

structure Frame where
  bindings : Bindings := {}
  parent : Option Nat := none
deriving Inhabited

/-- Frames are numbered from zero in the order of their creation. -/
structure Store where
  frames : Array Frame
  parent_lt : ∀ (f : Nat) (frame : Frame) (p : Nat),
    frames[f]? = some frame → frame.parent = some p → p < f

namespace Store

def empty : Store := ⟨#[], by simp⟩

def size (s : Store) : Nat := s.frames.size

def parent? (s : Store) (f : Nat) : Option Nat := (s.frames[f]?).bind Frame.parent

def find? (s : Store) (f : Nat) (name : String) : Option Value :=
  (s.frames[f]?).bind fun frame => frame.bindings.find? name

def contains (s : Store) (f : Nat) (name : String) : Bool := (s.find? f name).isSome

theorem parent?_lt (s : Store) {f p : Nat} (h : s.parent? f = some p) : p < f := by
  obtain ⟨frame, hFrame, hParent⟩ := Option.bind_eq_some_iff.mp h
  exact s.parent_lt f frame p hFrame hParent

/-- Adds a frame with no bindings. A parent that is not in the store is none. -/
def push (s : Store) (parent : Option Nat) : Store where
  frames := s.frames.push { parent := parent.filter (· < s.size) }
  parent_lt := by
    intro f frame p hFrame hParent
    rw [Array.getElem?_push] at hFrame
    split at hFrame
    · rename_i hLast
      cases hFrame
      obtain ⟨_, hLess⟩ := Option.filter_eq_some_iff.mp hParent
      rw [hLast]
      exact of_decide_eq_true hLess
    · exact s.parent_lt f frame p hFrame hParent

@[simp] theorem size_push (s : Store) (parent : Option Nat) : (s.push parent).size = s.size + 1 := by
  simp [size, push]

theorem find?_push (s : Store) (parent : Option Nat) (f : Nat) (name : String) :
    (s.push parent).find? f name = s.find? f name := by
  by_cases h : f = s.frames.size
  · subst h
    simp [find?, push, Bindings.find?, Bindings.seek]
  · simp [find?, push, Array.getElem?_push, h]

theorem parent?_push (s : Store) (parent : Option Nat) (f : Nat) :
    (s.push parent).parent? f =
      if f = s.size then parent.filter (· < s.size) else s.parent? f := by
  by_cases h : f = s.frames.size <;> simp [parent?, push, size, Array.getElem?_push, h]

/-- A new frame without a parent is numbered with the old size of the store. -/
def newGlobal (s : Store) : Nat × Store := (s.size, s.push none)

def newChild (s : Store) (parent : Nat) : Nat × Store := (s.size, s.push (some parent))

/-- A chain of new frames, each the child of the one before and the first a child of `parent`; gives
the last one. -/
def newChain : Nat → Nat → Store → Nat × Store
  | 0, parent, s => (parent, s)
  | count + 1, parent, s =>
    let (child, s) := s.newChild parent
    newChain count child s

/-- Binds a name in a frame, whether or not it was bound there. -/
def bind (s : Store) (f : Nat) (name : String) (value : Value) : Store where
  frames := s.frames.modify f fun frame =>
    { frame with bindings := frame.bindings.insert name value }
  parent_lt := by
    intro g frame p hFrame hParent
    rw [Array.getElem?_modify] at hFrame
    split at hFrame
    · obtain ⟨old, hOld, rfl⟩ := Option.map_eq_some_iff.mp hFrame
      exact s.parent_lt g old p hOld hParent
    · exact s.parent_lt g frame p hFrame hParent

@[simp] theorem size_bind (s : Store) (f : Nat) (name : String) (value : Value) :
    (s.bind f name value).size = s.size := by
  simp [size, bind]

@[simp] theorem parent?_bind (s : Store) (f g : Nat) (name : String) (value : Value) :
    (s.bind f name value).parent? g = s.parent? g := by
  by_cases h : f = g <;> cases hFrame : s.frames[g]? <;>
    simp [parent?, bind, Array.getElem?_modify, h, hFrame]

theorem find?_bind (s : Store) (f g : Nat) (name other : String) (value : Value) (hf : f < s.size) :
    (s.bind f name value).find? g other =
      if g = f ∧ other = name then some value else s.find? g other := by
  by_cases h : g = f
  · subst h
    have hFrame : s.frames[g]? = some s.frames[g] := Array.getElem?_eq_getElem hf
    simp [find?, bind, Array.getElem?_modify, hFrame, Bindings.find?_insert]
  · have h' : ¬f = g := fun e => h e.symm
    simp [find?, bind, Array.getElem?_modify, h, h']

/-- The nearest frame that binds a name, from `f` outwards. -/
def resolve? (s : Store) (f : Nat) (name : String) : Option Nat :=
  if s.contains f name then some f
  else
    match h : s.parent? f with
    | none => none
    | some p =>
      have := s.parent?_lt h
      s.resolve? p name
termination_by f

theorem resolve?_eq (s : Store) (f : Nat) (name : String) :
    s.resolve? f name =
      if s.contains f name then some f else (s.parent? f).bind fun p => s.resolve? p name := by
  rw [resolve?]
  split
  · rfl
  · split <;> simp_all

theorem contains_of_resolve? {s : Store} {f r : Nat} {name : String}
    (h : s.resolve? f name = some r) : s.contains r name = true := by
  fun_induction s.resolve? f name with
  | case1 f hBinds => cases h; exact hBinds
  | case2 => cases h
  | case3 f _ p _ _ ih => exact ih h

def resolve (s : Store) (f : Nat) (name : String) : Except ScopeError Nat :=
  match s.resolve? f name with
  | some r => .ok r
  | none => .error (.undefined name)

def get (s : Store) (f : Nat) (name : String) : Except ScopeError Value :=
  match (s.resolve? f name).bind fun r => s.find? r name with
  | some value => .ok value
  | none => .error (.undefined name)

/-- Binds a new name in a frame. Outer frames do not matter: a name may hide an outer one. -/
def define (s : Store) (f : Nat) (name : String) (value : Value) : Except ScopeError Store :=
  if s.contains f name then .error (.duplicate name) else .ok (s.bind f name value)

/-- Changes the nearest binding of a name; it never makes a new one. -/
def assign (s : Store) (f : Nat) (name : String) (value : Value) : Except ScopeError Store :=
  match s.resolve? f name with
  | some r => .ok (s.bind r name value)
  | none => .error (.undefined name)

end Store
end Reckoner
