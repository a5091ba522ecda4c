import ConsMachine.Globals

/-!
# States of the machine

A state has the instructions still to run, a stack of values, the environment of
the running code, and the table of globals. There is no call stack: a
continuation on the stack of values says what to do next, once the instructions
run out with one value above it.

A run ends with no instructions and at most one value. With none it has no
result (`State.result`).
-/

namespace ConsMachine

/-- A state of the machine. -/
structure State where
  /-- The instructions still to run. -/
  control : Value
  /-- The values, the top of the stack first. -/
  stack : List Value
  /-- The parameters of the running code, followed by what it captured. -/
  env : List Value
  globals : Globals
  /-- The identity of the next pair or closure. -/
  nextObject : Nat
  /-- The identity of the next continuation. -/
  nextContinuation : Nat

namespace State

/-- Nothing is left to run. -/
def isDone (s : State) : Bool :=
  match s.control, s.stack with
  | .nil, [] => true
  | .nil, [_] => true
  | _, _ => false

/-- The value of a run that has ended. -/
def result (s : State) : Except Error Value :=
  match s.control, s.stack with
  | .nil, [v] => .ok v
  | .nil, [] => .error (.misuse .noResult)
  | _, _ => .error (.misuse .resultBeforeEnd)

/-- Push a value. -/
def push (s : State) (v : Value) : State :=
  { s with stack := v :: s.stack }

theorem isDone_iff {s : State} :
    s.isDone = true ↔ s.control = .nil ∧ s.stack.length ≤ 1 := by
  cases hc : s.control <;> rcases hs : s.stack with _ | ⟨v, _ | ⟨w, below⟩⟩ <;>
    simp [isDone, hc, hs]

end State

end ConsMachine
