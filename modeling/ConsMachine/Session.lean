import ConsMachine.Datum.Reader
import ConsMachine.Machine.Run

/-!
# Sessions

A session is what outlives a run: the natives registered with the host, the
engines, each a table of globals, and the supplies of identities. All engines of a
session share the host and the supplies, so the identity of an object means the
same in each of them.

A run starts from a session (`Session.state`) on an engine of it, and the session
takes over what the run leaves (`Session.keep`), also from a run that failed: the
globals of that engine, and the identities used up.
-/

namespace ConsMachine

/-- An environment as the host holds it, an object of its own. -/
structure Environment where
  id : Nat
  values : List Value

/-- Environments are the same when they are one object. -/
def Environment.same (f g : Environment) : Bool :=
  f.id == g.id

namespace Alloc

/-- A fresh environment. -/
def environment (values : List Value) : Alloc Environment := fun next =>
  .ok (⟨next, values⟩, next + 1)

/-- The value of a datum, made of fresh pairs. -/
def load (d : Datum) : Alloc Value := fun next =>
  .ok (d.load next)

/-- The value that a text denotes. -/
def read (text : String) : Alloc Value :=
  match Datum.read text with
  | .ok d => load d
  | .error e => throw (.read e)

/-- The list of the values that a text denotes, one behind the other. -/
def readAll (text : String) : Alloc Value :=
  match Datum.readAll text with
  | .ok ds => load (.ofList ds .nil)
  | .error e => throw (.read e)

end Alloc

/-- What outlives a run. -/
structure Session where
  host : Host
  /-- The globals of each engine. -/
  engines : Array Globals
  /-- The identity of the next pair or closure. -/
  nextObject : Nat
  /-- The identity of the next continuation. -/
  nextContinuation : Nat

namespace Session

/-- A session with one engine. -/
def start (g : Globals) : Session :=
  ⟨.bare, #[g], 0, 0⟩

/-- Do what may make objects. -/
def alloc {α : Type} (s : Session) (a : Alloc α) : Except Error (α × Session) :=
  match a s.nextObject with
  | .ok (x, next) => .ok (x, { s with nextObject := next })
  | .error e => .error e

/-- Add an engine; the number of the new one is that of the engines before. -/
def addEngine (s : Session) (g : Globals) : Session :=
  { s with engines := s.engines.push g }

/-- The globals of an engine; an engine that is not there binds nothing. -/
def globals (s : Session) (engine : Nat) : Globals :=
  s.engines[engine]?.getD .empty

/-- Bind a global of an engine. -/
def bind (s : Session) (engine : Nat) (name : String) (v : Value) : Session :=
  { s with engines := s.engines.modify engine fun g => g.bind name v }

/-- Register a native with the host, and bind it in an engine. -/
def register (s : Session) (engine : Nat) (name : String) (f : Native) : Session :=
  let made := s.host.register name f
  { s with host := made.2 }.bind engine name (.native made.1)

/-- The first state of a run on an engine. -/
def state (s : Session) (engine : Nat) (control : Value) (stack env : List Value) : State :=
  ⟨control, stack, env, s.globals engine, s.nextObject, s.nextContinuation⟩

/-- Take over what a run on an engine leaves. -/
def keep (s : Session) (engine : Nat) (t : State) : Session :=
  { s with
    engines := s.engines.setIfInBounds engine t.globals
    nextObject := t.nextObject
    nextContinuation := t.nextContinuation }

end Session

end ConsMachine
