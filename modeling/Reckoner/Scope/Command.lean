import Reckoner.Failure

/-! # Commands on a store

A store seen as a machine: each command creates a frame, reads or writes a name, asks about frames, or
evaluates something in a frame, and gets one reply.
-/
namespace Reckoner
set_option autoImplicit false

inductive Store.Command where
  | global
  | child (frame count : Nat)
  | define (frame : Nat) (name : String) (value : Value)
  | assign (frame : Nat) (name : String) (value : Value)
  | get (frame : Nat) (name : String)
  | contains (frame : Nat) (name : String)
  | resolve (frame : Nat) (name : String)
  | parent (frame : Nat)
  | evaluate (frame : Nat) (e : Expr)
  | evaluateText (frame : Nat) (source : String)

inductive Store.Reply where
  | frame (id : Option Nat)
  | value (v : Value)
  | flag (b : Bool)
  | failed (error : LineError)

namespace Store

def written (s : Store) (value : Value) : Except ScopeError Store → Reply × Store
  | .ok s => (.value value, s)
  | .error e => (.failed (.eval (.scope e)), s)

def Reply.ofValue : Except EvalError Value → Reply
  | .ok v => .value v
  | .error e => .failed (.eval e)

def perform (s : Store) : Command → Reply × Store
  | .global =>
    let (id, s) := s.newGlobal
    (.frame (some id), s)
  | .child frame count =>
    let (id, s) := newChain count frame s
    (.frame (some id), s)
  | .define frame name value => s.written value (s.define frame name value)
  | .assign frame name value => s.written value (s.assign frame name value)
  | .get frame name => (.ofValue (Lookup.eval (s.get frame) name), s)
  | .contains frame name => (.flag (s.contains frame name), s)
  | .resolve frame name =>
    match s.resolve frame name with
    | .ok id => (.frame (some id), s)
    | .error e => (.failed (.eval (.scope e)), s)
  | .parent frame => (.frame (s.parent? frame), s)
  | .evaluate frame e => (.ofValue (e.evaluate (s.get frame)).result, s)
  | .evaluateText frame source =>
    match Program.parse source with
    | .error e => (.failed (.parse e), s)
    | .ok program => (.ofValue (program.toExpr.evaluate (s.get frame)).result, s)

def performAll : List Command → Store → Array Reply → Array Reply × Store
  | [], s, replies => (replies, s)
  | command :: rest, s, replies =>
    let (reply, s) := s.perform command
    performAll rest s (replies.push reply)

theorem performAll_cons (command : Command) (rest : List Command) (s : Store)
    (replies : Array Reply) :
    performAll (command :: rest) s replies =
      performAll rest (s.perform command).2 (replies.push (s.perform command).1) := rfl

theorem performAll_append (a b : List Command) (s : Store) (replies : Array Reply) :
    performAll (a ++ b) s replies =
      performAll b (performAll a s replies).2 (performAll a s replies).1 := by
  induction a generalizing s replies with
  | nil => rfl
  | cons command a ih => exact ih _ _

end Store
end Reckoner
