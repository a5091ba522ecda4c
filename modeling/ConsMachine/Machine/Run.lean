import ConsMachine.Machine.Step

/-!
# Runs

A run takes steps until none is left or one fails. As a run need not end, `run`
takes the number of steps it may make at most, and may come out unfinished; from
the state it reached it can go on.

`trace` lists the states of a run, with the errors of the steps that failed.
-/

namespace ConsMachine

/-- How a run of limited length comes out. -/
inductive Outcome where
  | finished (s : State)
  | failed (stop : Stop)
  | unfinished (s : State)

namespace State

/-- Run for at most `n` steps. -/
def run (host : Host) (n : Nat) (s : State) : Outcome :=
  if s.isDone then .finished s
  else
    match n with
    | 0 => .unfinished s
    | n + 1 =>
      match s.step host with
      | .ok t => run host n t
      | .error stop => .failed stop

/-- The states after each of at most `n` steps, and the error of each step that
    failed. A failed step ends the list, and so does the end of the run; but with
    `keepGoing` steps are taken as long as the state is not done, whatever
    failed, and one after the end of the run. -/
def trace (host : Host) (keepGoing : Bool) : Nat → State → List (State × Option Error)
  | 0, _ => []
  | n + 1, s =>
    if s.isDone && !keepGoing then []
    else
      match s.step host with
      | .ok t => (t, none) :: trace host keepGoing n t
      | .error ⟨e, t⟩ =>
        (t, some e) :: if keepGoing && !t.isDone then trace host keepGoing n t else []

end State

end ConsMachine
