import ConsMachine.Proofs.Steps

/-!
# Runs in a context

A step looks only at the top of the stack. So what a state does with success, it
does just the same with more entries beneath its stack (`State.atop`):
`stepWith_atop` for a step, `Steps.atop` for a run. That a state is done depends
on the depth of its whole stack, but a run that succeeds passes through no state
that is done, so it does not stop short in the larger context either.

Hence a block that returns a value when it runs on its own returns the same value
to whoever saved a continuation for it (`steps_return`): one step more resumes
the caller, with its instructions, its environment and the operands beneath the
continuation as they were.
-/

namespace ConsMachine

theorem takeCall_append {n : Nat} {above stack args rest : List Value} {f : Value}
    (h : takeCall n above stack = some (args, f, rest)) (below : List Value) :
    takeCall n above (stack ++ below) = some (args, f, rest ++ below) := by
  fun_induction takeCall n above stack with
  | case1 => cases h; rfl
  | case2 => cases h
  | case3 n above v stack ih => exact ih h
  | case4 => cases h

variable {p : Saving} {host : Host} {n : Nat} {s t : State} {below : List Value}

namespace State

/-- The state with more entries beneath its stack. -/
def atop (below : List Value) (s : State) : State :=
  { s with stack := s.stack ++ below }

@[simp] theorem atop_control (below : List Value) (s : State) :
    (s.atop below).control = s.control := rfl

@[simp] theorem atop_stack (below : List Value) (s : State) :
    (s.atop below).stack = s.stack ++ below := rfl

@[simp] theorem atop_env (below : List Value) (s : State) :
    (s.atop below).env = s.env := rfl

@[simp] theorem atop_globals (below : List Value) (s : State) :
    (s.atop below).globals = s.globals := rfl

@[simp] theorem atop_nextObject (below : List Value) (s : State) :
    (s.atop below).nextObject = s.nextObject := rfl

/-- Whether a continuation is saved does not depend on the stack. -/
theorem save_atop (below : List Value) (p : Saving) (s : State) :
    (s.atop below).save p = (s.save p).atop below := by
  by_cases h : p = .unlessDone ∧ s.control.isNil
  · rw [save, save, if_pos h, if_pos (by exact h)]
  · rw [save, save, if_neg h, if_neg (by exact h)]
    rfl

theorem resume_atop (h : s.resume = .ok t) : (s.atop below).resume = .ok (t.atop below) := by
  unfold resume at h
  split at h
  · rename_i hs
    cases h
    simp [resume, atop, hs]
  all_goals cases h

theorem call_atop {f : Value} {args : List Value} (h : call p host s f args = .ok t) :
    call p host (s.atop below) f args = .ok (t.atop below) := by
  fun_induction call p host s f args with
  | case1 => cases h
  | case2 f args ih => exact ih h
  | case3 _ arity hasRest code captured args env next hb =>
    cases h
    simp only [call, save_atop, atop_nextObject, hb]
    rfl
  | case4 => cases h
  | case5 f args v next hv =>
    cases h
    simp only [call, atop_nextObject, hv]
    rfl
  | case6 => cases h
  | case7 => cases h

theorem execute_atop {i : Instruction} (h : execute p host s i = .ok t) :
    execute p host (s.atop below) i = .ok (t.atop below) := by
  cases i with
  | push v => cases h; rfl
  | closure arity hasRest code => cases h; rfl
  | pop =>
    simp only [execute] at h
    split at h
    · rename_i hs
      cases h
      simp [execute, atop, hs]
    · cases h
  | access index =>
    simp only [execute] at h
    split at h
    · rename_i hv
      cases h
      simp [execute, atop, push, hv]
    · cases h
  | call count =>
    simp only [execute] at h
    split at h
    · -- The same arguments and function are found on top of the larger stack.
      rename_i args f rest hc
      simp only [execute, atop_stack, takeCall_append hc]
      exact call_atop h
    · cases h
  | branch thenCode elseCode =>
    simp only [execute] at h
    split at h
    · rename_i test rest hs
      cases h
      have hatop := save_atop below p { s with stack := rest }
      simp only [execute, atop, hs, List.cons_append] at hatop ⊢
      rw [hatop]
    · cases h
  | getGlobal name =>
    simp only [execute] at h
    split at h
    · rename_i hv
      cases h
      simp [execute, atop, push, hv]
    · cases h
  | setGlobal name =>
    simp only [execute] at h
    split at h
    · rename_i hs
      cases h
      simp [execute, atop, hs]
    · cases h

/-- A state that is not done is not done in any context. -/
theorem isDone_atop (h : s.isDone = false) : (s.atop below).isDone = false := by
  cases hd : (s.atop below).isDone with
  | false => rfl
  | true =>
    obtain ⟨hc, hl⟩ := isDone_iff.1 hd
    have : s.isDone = true := isDone_iff.2 ⟨hc, by
      simp only [atop, List.length_append] at hl
      omega⟩
    rw [h] at this
    cases this

/-- A step that succeeds does the same in any context. -/
theorem stepWith_atop (h : s.stepWith p host = .ok t) :
    (s.atop below).stepWith p host = .ok (t.atop below) := by
  -- Being done is the only thing that depends on the depth of the stack.
  have hd := (Steps.single h).isDone_eq_false
  rw [stepWith, if_neg (by simp [isDone_atop hd])]
  rw [stepWith, if_neg (by simp [hd])] at h
  rw [atop_control]
  split at h
  · exact resume_atop h
  · split at h
    · exact execute_atop h
    · cases h
  · cases h

end State

/-- A run does the same in any context. -/
theorem Steps.atop (h : Steps p host n s t) (below : List Value) :
    Steps p host n (s.atop below) (t.atop below) := by
  induction h with
  | refl s => exact .refl _
  | head hst _ ih => exact .head (State.stepWith_atop hst) ih

/-- A run that returned a value is done, with this value on the stack. -/
theorem State.result_eq_ok_iff {v : Value} :
    s.result = .ok v ↔ s.control = .nil ∧ s.stack = [v] := by
  constructor
  · intro h
    unfold result at h
    split at h
    · rename_i hc hs
      cases h
      exact ⟨hc, hs⟩
    all_goals cases h
  · rintro ⟨hc, hs⟩
    simp [result, hc, hs]

/-- With a value above a saved continuation and no instructions left, the machine
    resumes the continuation. -/
theorem State.stepWith_resume {v : Value} {id : Nat} {control : Value} {env : List Value}
    (hc : s.control = .nil) (hs : s.stack = v :: .continuation id control env :: below) :
    s.stepWith p host = .ok { s with control := control, env := env, stack := v :: below } := by
  have hd : s.isDone = false := by simp [isDone, hc, hs]
  rw [stepWith, if_neg (by simp [hd])]
  simp only [hc, resume, hs]

/-- A block that returns a value on its own returns it to any caller. If the run of
    `code` on an empty stack takes `k` steps and ends with the value `v`, then
    above a continuation that was saved for `control` in the environment `saved`,
    and whatever operands lie beneath it, the machine gets after exactly `k + 1`
    steps to `control` in `saved`, with `v` pushed on these operands and with the
    same globals. Up to then the states are those of the block's own run, over a
    stack that does not change. -/
theorem steps_return {k : Nat} {code : Value} {env : List Value} {g : Globals}
    {nextObject nextContinuation : Nat} {v : Value}
    (h : Steps p host k ⟨code, [], env, g, nextObject, nextContinuation⟩ t)
    (hv : t.result = .ok v) (operands : List Value) (id : Nat) (control : Value)
    (saved : List Value) :
    let caller := .continuation id control saved :: operands
    Steps p host (k + 1) ⟨code, caller, env, g, nextObject, nextContinuation⟩
        ⟨control, v :: operands, saved, t.globals, t.nextObject, t.nextContinuation⟩ ∧
      ∀ j ≤ k, ∀ u, Steps p host j ⟨code, caller, env, g, nextObject, nextContinuation⟩ u →
        ∃ w, Steps p host j ⟨code, [], env, g, nextObject, nextContinuation⟩ w ∧
          u = w.atop caller := by
  intro caller
  obtain ⟨hc, hs⟩ := State.result_eq_ok_iff.1 hv
  have hatop : Steps p host k ⟨code, caller, env, g, nextObject, nextContinuation⟩
      (t.atop caller) := h.atop caller
  refine ⟨hatop.trans (.single ?_), fun j hj u hu => ?_⟩
  · exact State.stepWith_resume hc (by rw [State.atop, hs]; rfl)
  · -- The block's own run passes through a state after `j` steps; in the context,
    -- it is the only one that `j` steps lead to.
    obtain ⟨w, hw⟩ := h.exists_of_le hj
    exact ⟨w, hw, hu.unique (hw.atop caller)⟩

open Instruction in
/-- A block with a branch of its own, and a caller that it returns to. -/
theorem steps_return_branch :
    let code := (encodeAll [push (.bool true), branch (encodeAll [push (.number 1)] 0).1 .nil,
      setGlobal "x"] 0).1
    let left : State := ⟨.nil, [.number 1], [], Globals.empty.bind "x" (.number 1), 50, 1⟩
    (Steps .unlessDone .bare 5 ⟨code, [], [], .empty, 50, 0⟩ left ∧
        left.result = .ok (.number 1)) ∧
      Steps .unlessDone .bare 6
        ⟨code, [.continuation 7 code [.nil], .bool false], [], .empty, 50, 0⟩
        ⟨code, [.number 1, .bool false], [.nil], Globals.empty.bind "x" (.number 1), 50, 1⟩ := by
  intro code left
  have h : Steps .unlessDone .bare 5 ⟨code, [], [], .empty, 50, 0⟩ left :=
    .head rfl (.head rfl (.head rfl (.head rfl (.single rfl))))
  exact ⟨⟨h, rfl⟩, (steps_return h rfl [.bool false] 7 code [.nil]).1⟩

end ConsMachine
