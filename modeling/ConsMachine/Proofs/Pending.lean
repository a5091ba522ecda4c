import ConsMachine.Machine.Depth
import ConsMachine.Proofs.Discipline

/-!
# Runs that end with work pending

A branch or a closure call with instructions after it saves them as a
continuation, in a slot of the stack. The continuation is *pending* as long as it
sits in this slot (`Pending`): no step has taken it off, to resume it or for
another reason. A run has ended when no instructions are left and at most one
entry is on the stack, whatever this entry is; so it may end with a continuation
pending, and the instructions saved in it are never run.

* This happens exactly when a branch or call has nothing else on the stack, and
  what it enters comes to the end of its instructions *barren*: it took off all
  that it pushed, and left no value (`pending_iff_endsBarren`). The result of
  such a run is the pending continuation itself.
* A program of a few instructions does so (`not_forall_not_pending`).
* With an operand beneath the continuation, a barren branch or body makes the
  machine fail, as nothing is there to resume (`run_eq_failed_of_endsBarren`).
* Balanced programs never end with work pending (`not_pending_of_balanced`): in
  them, no branch or body is barren.
-/

namespace ConsMachine

/-! ### What a step takes off the stack -/

/-- The number of entries that an instruction takes off the stack. -/
def Instruction.popped : Instruction → Nat
  | pop | branch .. => 1
  | call count => count + 1
  | push _ | access _ | closure .. | getGlobal _ | setGlobal _ => 0

namespace State

/-- The number of entries that the next step takes off the stack. -/
def popped (s : State) : Nat :=
  match s.control with
  | .pair _ form _ =>
    match Instruction.decode form with
    | .ok i => i.popped
    | .error _ => 0
  | _ => 2

/-- Whether the next step saves a continuation: it executes a branch, or a call
    that enters the body of a closure, and instructions are left after it. -/
def saves (s : State) : Bool :=
  match s.control with
  | .pair _ form rest =>
    !rest.isNil &&
      match Instruction.decode form with
      | .ok (.branch ..) => true
      | .ok (.call count) =>
        match takeCall count [] s.stack with
        | some (args, f, _) => entersBody f args
        | none => false
      | _ => false
  | _ => false

end State

variable {p : Saving} {host : Host} {i m n depth : Nat} {s t u : State}

namespace State

theorem exists_stack_save (p : Saving) (s : State) : ∃ pushed, (s.save p).stack = pushed ++ s.stack := by
  unfold save
  split
  · exact ⟨[], rfl⟩
  · exact ⟨[_], rfl⟩

theorem exists_stack_call {f : Value} {args : List Value} (h : s.call p host f args = .ok t) :
    ∃ pushed, t.stack = pushed ++ s.stack := by
  fun_induction call p host s f args with
  | case1 => cases h
  | case2 f args ih => exact ih h
  | case3 =>
    cases h
    exact exists_stack_save p s
  | case4 => cases h
  | case5 f args v next hv =>
    cases h
    exact ⟨[v], rfl⟩
  | case6 => cases h
  | case7 => cases h

/-- The body of a closure is entered with what was saved on the stack. -/
theorem stack_call {f : Value} {args : List Value} (hb : entersBody f args = true)
    (h : s.call p host f args = .ok t) : t.stack = (s.save p).stack := by
  fun_induction call p host s f args with
  | case1 => cases h
  | case2 f args ih => exact ih hb h
  | case3 => cases h; rfl
  | case4 => cases h
  | case5 => simp [entersBody] at hb
  | case6 => cases h
  | case7 => cases h

theorem exists_stack_execute {op : Instruction} (h : s.execute p host op = .ok t) :
    ∃ pushed, t.stack = pushed ++ s.stack.drop op.popped := by
  cases op with
  | push v => cases h; exact ⟨[v], rfl⟩
  | closure => cases h; exact ⟨[_], rfl⟩
  | pop =>
    simp only [execute] at h
    split at h
    · rename_i hs
      cases h
      exact ⟨[], by simp [hs, Instruction.popped]⟩
    · cases h
  | access index =>
    simp only [execute] at h
    split at h
    · cases h; exact ⟨[_], rfl⟩
    · cases h
  | call count =>
    simp only [execute] at h
    split at h
    · rename_i args f below hc
      obtain ⟨hdrop, _⟩ := takeCall_eq_some_iff.1 hc
      obtain ⟨pushed, hpushed⟩ := exists_stack_call h
      refine ⟨pushed, ?_⟩
      rw [hpushed, Instruction.popped, ← List.drop_drop, hdrop, List.drop_one, List.tail_cons]
    · cases h
  | branch thenCode elseCode =>
    simp only [execute] at h
    split at h
    · rename_i test below hs
      cases h
      obtain ⟨pushed, hpushed⟩ := exists_stack_save p { s with stack := below }
      exact ⟨pushed, by rw [hpushed, hs]; rfl⟩
    · cases h
  | getGlobal name =>
    simp only [execute] at h
    split at h
    · cases h; exact ⟨[_], rfl⟩
    · cases h
  | setGlobal name =>
    simp only [execute] at h
    split at h
    · cases h; exact ⟨[], rfl⟩
    · cases h

theorem popped_of_decode {id : Nat} {form rest : Value} {op : Instruction}
    (hc : s.control = .pair id form rest) (hop : Instruction.decode form = .ok op) :
    s.popped = op.popped := by
  simp only [popped, hc, hop]

/-- A step changes nothing beneath the entries that it takes off. -/
theorem exists_stack_step (h : s.stepWith p host = .ok t) :
    ∃ pushed, t.stack = pushed ++ s.stack.drop s.popped := by
  rw [stepWith, if_neg (by simp [(Steps.single h).isDone_eq_false])] at h
  split at h
  · rename_i hc
    unfold resume at h
    split at h
    · rename_i v _ _ _ _ hs
      cases h
      exact ⟨[v], by simp [popped, hc, hs]⟩
    all_goals cases h
  · rename_i hc
    split at h
    · rename_i hop
      rw [popped_of_decode hc hop]
      have hexecute := exists_stack_execute h
      exact hexecute
    · cases h
  · cases h

theorem nextContinuation_save (s : State) :
    (s.save .unlessDone).nextContinuation =
      s.nextContinuation + if s.control.isNil then 0 else 1 := by
  unfold save
  split <;> simp_all

theorem nextContinuation_call {f : Value} {args : List Value}
    (h : s.call .unlessDone host f args = .ok t) :
    t.nextContinuation =
      s.nextContinuation + if !s.control.isNil && entersBody f args then 1 else 0 := by
  fun_induction call .unlessDone host s f args with
  | case1 => cases h
  | case2 f args ih => exact ih h
  | case3 id arity hasRest code captured args env next hb =>
    cases h
    rw [nextContinuation_save, entersBody]
    cases s.control.isNil <;> rfl
  | case4 => cases h
  | case5 f args v next hv =>
    cases h
    simp [push, entersBody]
  | case6 => cases h
  | case7 => cases h

theorem nextContinuation_execute {op : Instruction} {id : Nat} {form : Value}
    (hop : Instruction.decode form = .ok op) (h : s.execute .unlessDone host op = .ok t) :
    t.nextContinuation = s.nextContinuation +
      if saves { s with control := .pair id form s.control } then 1 else 0 := by
  cases op with
  | push | closure =>
    cases h
    simp [saves, hop, push]
  | pop | setGlobal | access | getGlobal =>
    simp only [execute] at h
    split at h <;> cases h
    simp [saves, hop, push]
  | branch thenCode elseCode =>
    simp only [execute] at h
    split at h <;> cases h
    simp only [saves, hop, nextContinuation_save]
    cases s.control.isNil <;> rfl
  | call count =>
    simp only [execute] at h
    split at h
    · rename_i htake
      rw [nextContinuation_call h]
      simp only [saves, hop, htake]
    · cases h

/-- A step makes a continuation if it saves one, and no other does. -/
theorem nextContinuation_step (h : s.step host = .ok t) :
    t.nextContinuation = s.nextContinuation + if s.saves then 1 else 0 := by
  rw [step, stepWith, if_neg (by simp [(Steps.single (p := .unlessDone) h).isDone_eq_false])] at h
  split at h
  · rename_i hc
    unfold resume at h
    split at h <;> cases h
    simp [saves, hc]
  · rename_i id form rest hc
    split at h
    · rename_i hop
      rw [nextContinuation_execute hop h, ← hc]
    · cases h
  · cases h

/-- A step that saves leaves what remains of its block on top of the stack, with the
    environment of the block, above what the step did not take off. -/
theorem exists_rest_of_saves (hs : s.saves = true) (h : s.step host = .ok t) :
    ∃ id form rest, s.control = .pair id form rest ∧ rest ≠ .nil ∧
      t.stack = .continuation s.nextContinuation rest s.env :: s.stack.drop s.popped := by
  unfold saves at hs
  split at hs
  · rename_i id form rest hc
    rw [Bool.and_eq_true, Bool.not_eq_true'] at hs
    obtain ⟨hrest, hs⟩ := hs
    have hnil : rest ≠ .nil := by
      rintro rfl
      cases hrest
    refine ⟨id, form, rest, hc, hnil, ?_⟩
    -- Of the eight instructions, only a branch and a call save anything.
    cases hop : Instruction.decode form with
    | error e => rw [hop] at hs; cases hs
    | ok op =>
      rw [step, stepWith_of_decode hc hop] at h
      rw [popped_of_decode hc hop]
      simp only [hop] at hs
      cases op with
      | branch thenCode elseCode =>
        simp only [execute] at h
        split at h
        · rename_i test below hstack
          cases h
          simp [save, hrest, hstack, Instruction.popped]
        · cases h
      | call count =>
        simp only [execute] at h
        split at h
        · rename_i args f below htake
          simp only [htake] at hs
          obtain ⟨hdrop, _⟩ := takeCall_eq_some_iff.1 htake
          rw [stack_call hs h, Instruction.popped, ← List.drop_drop, hdrop]
          simp [save, hrest]
        · cases h
      | _ => cases hs
  · cases hs

/-- What a step saves is on top of the stack after it. -/
theorem stack_step_of_saves (hs : s.saves = true) (h : s.step host = .ok t) :
    ∃ id control env, control ≠ .nil ∧
      t.stack = .continuation id control env :: s.stack.drop s.popped := by
  obtain ⟨_, _, rest, _, hrest, hstack⟩ := exists_rest_of_saves hs h
  exact ⟨_, rest, _, hrest, hstack⟩

end State

/-! ### Pending continuations -/

/-- The machine gets from one state to another in `n` steps, and none of them takes
    off any of the `depth` entries at the bottom of the stack. -/
inductive Keeps (host : Host) (depth : Nat) : Nat → State → State → Prop
  | refl (s : State) : Keeps host depth 0 s s
  | head {n : Nat} {s t u : State} :
      depth + s.popped ≤ s.stack.length → s.step host = .ok t → Keeps host depth n t u →
      Keeps host depth (n + 1) s u

namespace Keeps

theorem steps (h : Keeps host depth n s t) : Steps .unlessDone host n s t := by
  induction h with
  | refl s => exact .refl s
  | head _ hst _ ih => exact .head hst ih

/-- What is not taken off stays. -/
theorem exists_stack {above below : List Value} (h : Keeps host depth n s t)
    (hs : s.stack = above ++ below) (hl : below.length = depth) :
    ∃ above', t.stack = above' ++ below := by
  induction h generalizing above with
  | refl s => exact ⟨above, hs⟩
  | @head _ s t u hdepth hst _ ih =>
    obtain ⟨pushed, hpushed⟩ := State.exists_stack_step (p := .unlessDone) hst
    -- The step takes nothing from `below`, which lies beneath all it takes off.
    have hpopped : s.popped ≤ above.length := by
      rw [hs, List.length_append] at hdepth
      omega
    rw [hs, List.drop_append_of_le_length hpopped, ← List.append_assoc] at hpushed
    exact ih hpushed

/-- If no entry is taken off, all of them stay. -/
theorem exists_stack_of_length (h : Keeps host s.stack.length n s t) :
    ∃ above, t.stack = above ++ s.stack :=
  h.exists_stack (List.nil_append _).symm rfl

end Keeps

/-- In the state `t` of a run from `start`, a continuation is pending in the slot
    above `depth` entries: a branch or call saved it there, and no step has taken
    it off since. -/
def Pending (host : Host) (start t : State) (depth : Nat) : Prop :=
  ∃ i s u n, Steps .unlessDone host i start s ∧ s.saves = true ∧ s.step host = .ok u ∧
    u.stack.length = depth + 1 ∧ Keeps host (depth + 1) n u t

/-- A branch or body that was entered in this state comes to the end of its
    instructions, and has taken off all that it pushed. -/
def EndsBarren (host : Host) (u : State) : Prop :=
  ∃ n t, Keeps host u.stack.length n u t ∧ t.control = .nil ∧ t.stack.length = u.stack.length

/-- A pending continuation is on the stack, and instructions are saved in it. -/
theorem Pending.exists_stack (h : Pending host s t depth) :
    ∃ above below id control env, t.stack = above ++ .continuation id control env :: below ∧
      below.length = depth ∧ control ≠ .nil := by
  obtain ⟨i, s, u, n, _, hs, hu, hl, hkeeps⟩ := h
  obtain ⟨id, control, env, hcontrol, hstack⟩ := State.stack_step_of_saves hs hu
  obtain ⟨above, ht⟩ := (hl ▸ hkeeps).exists_stack_of_length
  rw [hstack] at ht hl
  exact ⟨above, _, id, control, env, ht, Nat.succ.inj hl, hcontrol⟩

/-- If a run has ended with a continuation pending, the continuation is its result. -/
theorem Pending.result (h : Pending host s t depth) (hd : t.isDone = true) :
    ∃ id control env, t.result = .ok (.continuation id control env) ∧ control ≠ .nil := by
  obtain ⟨hc, hl⟩ := State.isDone_iff.1 hd
  obtain ⟨above, below, id, control, env, hstack, _, hcontrol⟩ := h.exists_stack
  rw [hstack, List.length_append, List.length_cons] at hl
  obtain rfl : above = [] := List.eq_nil_of_length_eq_zero (by omega)
  obtain rfl : below = [] := List.eq_nil_of_length_eq_zero (by omega)
  exact ⟨id, control, env, State.result_eq_ok_iff.2 ⟨hc, hstack⟩, hcontrol⟩

/-- The slot of a pending continuation is one of the stack. -/
theorem Pending.depth_lt (h : Pending host s t depth) : depth < t.stack.length := by
  obtain ⟨above, below, _, _, _, hstack, rfl, _⟩ := h.exists_stack
  rw [hstack, List.length_append, List.length_cons]
  omega

/-- The states in which runs end are the same however long they may be. -/
theorem State.eq_of_run_eq_finished {k : Nat} (h : s.run host n = .finished t)
    (hsu : Steps .unlessDone host k s u) (hd : u.isDone = true) : t = u := by
  obtain ⟨m, _, hst, ht⟩ := run_eq_finished_iff.1 h
  have hmk := hst.le_of_stuck hsu (stepWith_of_isDone hd)
  have hkm := hsu.le_of_stuck hst (stepWith_of_isDone ht)
  obtain rfl := Nat.le_antisymm hmk hkm
  exact hst.unique hsu

/-- A run ends with work pending exactly when, somewhere in it, a branch or call
    saves a continuation with nothing else on the stack, and what it enters comes
    to its end barren. The run then returns this continuation, with the
    instructions that were skipped in it. -/
theorem pending_iff_endsBarren {start : State} (h : start.run host n = .finished t) :
    ((∃ depth, Pending host start t depth) ↔
        ∃ i s u, Steps .unlessDone host i start s ∧ s.saves = true ∧ s.step host = .ok u ∧
          u.stack.length = 1 ∧ EndsBarren host u) ∧
      ((∃ depth, Pending host start t depth) →
        ∃ id control env, t.result = .ok (.continuation id control env) ∧ control ≠ .nil) := by
  obtain ⟨_, _, _, hd⟩ := State.run_eq_finished_iff.1 h
  obtain ⟨hc, hl⟩ := State.isDone_iff.1 hd
  refine ⟨⟨?_, ?_⟩, fun ⟨depth, hpending⟩ => hpending.result hd⟩
  · rintro ⟨depth, hpending⟩
    -- At most one entry is left, so the pending continuation is the only one.
    have hdepth := hpending.depth_lt
    obtain rfl : depth = 0 := by omega
    obtain ⟨i, s, u, k, hs, hsaves, hu, hlu, hkeeps⟩ := hpending
    exact ⟨i, s, u, hs, hsaves, hu, hlu, k, t, hlu ▸ hkeeps, hc, by omega⟩
  · rintro ⟨i, s, u, hs, hsaves, hu, hlu, k, w, hkeeps, hcw, hlw⟩
    -- The state in which the barren block ends is done, so the run ends there.
    have hw : Steps .unlessDone host (i + (k + 1)) start w := hs.trans (.head hu hkeeps.steps)
    have hdw : w.isDone = true := State.isDone_iff.2 ⟨hcw, by omega⟩
    obtain rfl := State.eq_of_run_eq_finished h hw hdw
    rw [hlu] at hkeeps
    exact ⟨0, i, s, u, k, hs, hsaves, hu, hlu, hkeeps⟩

open Instruction in
/-- A branch on nothing, and an instruction after it that is never run. -/
def skippedPush : Value :=
  (encodeAll [push (.bool true), branch .nil .nil, push (.number 5)] 0).1

/-- The first two steps of the program: the branch leaves what it saved, and no
    instructions. -/
theorem exists_steps_skippedPush :
    ∃ (s : State) (id : Nat) (control : Value), control ≠ .nil ∧
      Steps .unlessDone .bare 1 ⟨skippedPush, [], [], .initial, 50, 0⟩ s ∧ s.saves = true ∧
      s.step .bare = .ok ⟨.nil, [.continuation id control []], [], .initial, 50, 1⟩ :=
  ⟨_, _, _, by rintro ⟨⟩, .single rfl, rfl, rfl⟩

/-- A program that returns what was saved before its last instruction. -/
theorem run_skippedPush :
    ∃ t id control env, State.run .bare 2 ⟨skippedPush, [], [], .initial, 50, 0⟩ = .finished t ∧
      t.result = .ok (.continuation id control env) ∧ control ≠ .nil := by
  obtain ⟨s, id, control, hcontrol, hs, hsaves, hu⟩ := exists_steps_skippedPush
  let t : State := ⟨.nil, [.continuation id control []], [], .initial, 50, 1⟩
  have hrun : State.run .bare 2 ⟨skippedPush, [], [], .initial, 50, 0⟩ = .finished t :=
    State.run_eq_finished_iff.2 ⟨2, Nat.le_refl 2, hs.trans (.single hu), rfl⟩
  have hbarren : EndsBarren .bare t := ⟨0, t, .refl t, rfl, rfl⟩
  obtain ⟨hiff, hresult⟩ := pending_iff_endsBarren hrun
  obtain ⟨id, control, env, hresult, hcontrol⟩ :=
    hresult (hiff.2 ⟨1, s, t, hs, hsaves, hu, rfl, hbarren⟩)
  exact ⟨t, id, control, env, hrun, hresult, hcontrol⟩

/-- Not all runs from an empty stack end with no work pending. -/
theorem not_forall_not_pending :
    ¬ ∀ (code : Value) (n : Nat) (t : State),
      State.run .bare n ⟨code, [], [], .initial, 50, 0⟩ = .finished t →
        ∀ depth, ¬ Pending .bare ⟨code, [], [], .initial, 50, 0⟩ t depth := by
  obtain ⟨s, id, control, _, hs, hsaves, hu⟩ := exists_steps_skippedPush
  intro h
  refine h skippedPush 2 _ ?_ 0 ⟨1, s, _, 0, hs, hsaves, hu, rfl, .refl _⟩
  exact State.run_eq_finished_iff.2 ⟨2, Nat.le_refl 2, hs.trans (.single hu), rfl⟩

/-- With another value beneath the one on top, there is nothing to resume. -/
theorem State.stepWith_of_notContinuation {v w : Value} {below : List Value}
    (hc : s.control = .nil) (hs : s.stack = w :: v :: below)
    (hv : ∀ id control env, v ≠ .continuation id control env) :
    s.stepWith p host = .error ⟨.type (.notContinuation v), { s with stack := below }⟩ := by
  have hd : s.isDone = false := by simp [isDone, hc, hs]
  rw [stepWith, if_neg (by simp [hd])]
  simp only [hc]
  unfold resume
  split
  · rename_i hs'
    rw [hs] at hs'
    cases hs'
    exact absurd rfl (hv _ _ _)
  all_goals
    rename_i hs'
    rw [hs] at hs'
    cases hs'
  rw [← hc]

/-- With an operand beneath what was saved, a run that becomes barren fails: the
    continuation is taken for the value of the branch or body, and nothing is there
    to resume. -/
theorem run_eq_failed_of_endsBarren {start : State} {saved v : Value} {below : List Value}
    (hs : Steps .unlessDone host i start u) (hstack : u.stack = saved :: v :: below)
    (hv : ∀ id control env, v ≠ .continuation id control env) (hbarren : EndsBarren host u) :
    ∃ n stop, start.run host n = .failed stop ∧ stop.error = .type (.notContinuation v) := by
  obtain ⟨k, t, hkeeps, hc, hl⟩ := hbarren
  obtain ⟨above, ht⟩ := hkeeps.exists_stack_of_length
  obtain rfl : above = [] := List.eq_nil_of_length_eq_zero (by
    rw [ht, List.length_append] at hl
    omega)
  rw [List.nil_append, hstack] at ht
  have hd : t.isDone = false := by simp [State.isDone, hc, ht]
  refine ⟨i + k + 1, ⟨.type (.notContinuation v), { t with stack := below }⟩, ?_, rfl⟩
  refine State.run_eq_failed_iff.2 ⟨i + k, Nat.lt_succ_self _, t, hs.trans hkeeps.steps, hd, ?_⟩
  exact State.stepWith_of_notContinuation hc ht hv

/-- A balanced program never ends with work pending. -/
theorem not_pending_of_balanced {env : List Value} {code : Value} {g : Globals}
    {nextObject nextContinuation : Nat} (hh : host.KeepsSound) (hb : Balanced env.length 0 code)
    (he : ∀ v ∈ env, Sound v) (hg : g.Sound)
    (h : State.run host n ⟨code, [], env, g, nextObject, nextContinuation⟩ = .finished t) :
    ¬ Pending host ⟨code, [], env, g, nextObject, nextContinuation⟩ t depth := by
  obtain ⟨k, _, hst, hd⟩ := State.run_eq_finished_iff.1 h
  have ht := (hb.disciplined he hg nextObject nextContinuation).steps hh hst
  obtain ⟨v, hv, _, hresult⟩ := ht.exists_result hd
  intro hpending
  obtain ⟨id, control, env, hresult', _⟩ := hpending.result hd
  rw [hresult] at hresult'
  cases hresult'
  exact Sound.not_continuation hv

end ConsMachine
