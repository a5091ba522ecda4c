import ConsMachine.Machine.Step

/-!
# The depth of the stack

A step takes a known number of entries off the stack and pushes at most one, so
the depth after it follows from the depth before it, without a look at the rest
of the stack (`State.depthAfter`, `State.length_stack_step`). A metered run
counts its steps and keeps the depth and the greatest depth it has seen.
-/

namespace ConsMachine

/-- Whether a call of `f` comes down to the body of a closure. -/
def entersBody : Value → List Value → Bool
  | .apply, f :: args => entersBody f args
  | .closure .., _ => true
  | _, _ => false

theorem length_of_takeCall {n : Nat} {above stack args below : List Value} {f : Value}
    (h : takeCall n above stack = some (args, f, below)) :
    stack.length = n + 1 + below.length := by
  fun_induction takeCall n above stack with
  | case1 => simp_all; omega
  | case2 => simp at h
  | case3 n above v stack ih => simp [ih h]; omega
  | case4 => simp at h

namespace State

/-- The entries a saved continuation takes: none or one. -/
def savedDepth (p : Saving) (control : Value) : Nat :=
  if p = .unlessDone ∧ control.isNil then 0 else 1

/-- The depth of the stack after an instruction is executed with success, where
    `depth` is the depth before. -/
def depthAfterExecute (p : Saving) (s : State) (depth : Nat) : Instruction → Nat
  | .push _ | .access _ | .closure .. | .getGlobal _ => depth + 1
  | .pop => depth - 1
  | .setGlobal _ => depth
  | .branch .. => depth - 1 + savedDepth p s.control
  | .call count =>
    match takeCall count [] s.stack with
    | some (args, f, _) =>
      depth - (count + 1) + if entersBody f args then savedDepth p s.control else 1
    | none => depth

/-- The depth of the stack after the next step, if it succeeds, where `depth` is
    the depth before. -/
def depthAfter (p : Saving) (s : State) (depth : Nat) : Nat :=
  match s.control with
  | .pair _ form rest =>
    match Instruction.decode form with
    | .ok i => depthAfterExecute p { s with control := rest } depth i
    | .error _ => depth
  | _ => depth - 1

theorem length_stack_save (p : Saving) (s : State) :
    (s.save p).stack.length = s.stack.length + savedDepth p s.control := by
  unfold save savedDepth
  split <;> simp

theorem length_stack_call {p : Saving} {host : Host} {s t : State} {f : Value}
    {args : List Value} (h : call p host s f args = .ok t) :
    t.stack.length =
      s.stack.length + if entersBody f args then savedDepth p s.control else 1 := by
  fun_induction call p host s f args with
  | case1 => simp at h
  | case2 f args ih => rw [ih h]; rfl
  | case3 args _ _ _ _ _ env next _ =>
    cases h
    simp [length_stack_save, entersBody]
  | case4 => simp at h
  | case5 => cases h; simp [push, entersBody]
  | case6 => simp at h
  | case7 => simp at h

theorem length_stack_execute {p : Saving} {host : Host} {s t : State} {i : Instruction}
    (h : execute p host s i = .ok t) :
    t.stack.length = depthAfterExecute p s s.stack.length i := by
  cases i with
  | push v => cases h; simp [push, depthAfterExecute]
  | pop =>
    simp only [execute] at h
    split at h
    · rename_i hs; cases h; simp [depthAfterExecute, hs]
    · simp at h
  | access index =>
    simp only [execute] at h
    split at h
    · cases h; simp [push, depthAfterExecute]
    · simp at h
  | closure arity hasRest code => cases h; simp [push, depthAfterExecute]
  | call count =>
    simp only [execute] at h
    split at h
    · rename_i args f below hc
      rw [length_stack_call h, depthAfterExecute, hc, length_of_takeCall hc]
      simp
    · simp at h
  | branch thenCode elseCode =>
    simp only [execute] at h
    split at h
    · rename_i hs; cases h; simp [length_stack_save, depthAfterExecute, hs]
    · simp at h
  | getGlobal name =>
    simp only [execute] at h
    split at h
    · cases h; simp [push, depthAfterExecute]
    · simp at h
  | setGlobal name =>
    simp only [execute] at h
    split at h
    · cases h; simp [depthAfterExecute]
    · simp at h

theorem length_stack_resume {s t : State} (h : s.resume = .ok t) :
    t.stack.length = s.stack.length - 1 := by
  unfold resume at h
  split at h
  · rename_i hs; cases h; simp [hs]
  all_goals simp at h

/-- The depth of the stack after a step that succeeds. -/
theorem length_stack_step {p : Saving} {host : Host} {s t : State}
    (h : stepWith p host s = .ok t) : t.stack.length = s.depthAfter p s.stack.length := by
  unfold stepWith at h
  split at h
  · simp at h
  split at h
  · rename_i hc
    rw [length_stack_resume h, depthAfter, hc]
  · rename_i hc
    rw [depthAfter, hc]
    split at h
    · rename_i hi
      rw [length_stack_execute h]
      simp [hi]
    · simp at h
  · simp at h

end State

/-- A run that counts its steps and measures its stack. -/
structure Metered where
  state : State
  /-- The depth of the stack. -/
  depth : Nat
  depth_eq : depth = state.stack.length
  /-- The steps taken. -/
  steps : Nat
  /-- The greatest depth so far. -/
  peak : Nat

namespace Metered

/-- Before the first step. -/
def start (s : State) : Metered :=
  ⟨s, s.stack.length, rfl, 0, s.stack.length⟩

/-- One step; also one that fails counts. -/
def step (host : Host) (m : Metered) : Metered × Option Error :=
  match h : m.state.step host with
  | .ok t =>
    let depth := m.state.depthAfter .unlessDone m.depth
    (⟨t, depth, by
      rw [State.length_stack_step h, ← m.depth_eq], m.steps + 1, max m.peak depth⟩, none)
  | .error stop =>
    (⟨stop.left, stop.left.stack.length, rfl, m.steps + 1, m.peak⟩, some stop.error)

/-- Run for at most `n` steps, until the run ends or a step fails. -/
def run (host : Host) (n : Nat) (m : Metered) : Metered × Option Error :=
  match n with
  | 0 => (m, none)
  | n + 1 =>
    if m.state.isDone then (m, none)
    else
      match m.step host with
      | (m', none) => run host n m'
      | (m', some e) => (m', some e)

end Metered

end ConsMachine
