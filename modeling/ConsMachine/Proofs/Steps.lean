import ConsMachine.Machine.Run

/-!
# Counted steps

`Steps p host n s t` says that the machine gets from `s` to `t` in exactly `n`
steps, all of which succeed. As a step is a function of the state, `n` and `s`
determine `t` (`Steps.unique`), and a state without a next step ends every run
that passes through it (`Steps.le_of_stuck`).

What a step is going to do is read off the state: it executes an instruction
(`State.Executes`), and if that is a call, it comes down to one of a function other
than the apply marker (`State.Calls`).

A run of limited length is described by its steps: it is finished when it comes
to a state that is done (`run_eq_finished_iff`), failed when it comes to another
one whose step fails (`run_eq_failed_iff`), and unfinished when it made all the
steps it was given and is not done (`run_eq_unfinished_iff`).
-/

namespace ConsMachine

/-- The machine gets from one state to another in exactly `n` steps. -/
inductive Steps (p : Saving) (host : Host) : Nat → State → State → Prop
  | refl (s : State) : Steps p host 0 s s
  | head {n : Nat} {s t u : State} :
      s.stepWith p host = .ok t → Steps p host n t u → Steps p host (n + 1) s u

variable {p : Saving} {host : Host} {m n : Nat} {s t u : State}

theorem State.stepWith_of_isDone (h : s.isDone = true) :
    s.stepWith p host = .error ⟨.misuse .stepAfterEnd, s⟩ := by
  rw [stepWith, if_pos h]

/-- With an instruction on the control, the machine executes it. -/
theorem State.stepWith_of_decode {id : Nat} {form rest : Value} {i : Instruction}
    (hc : s.control = .pair id form rest) (hi : Instruction.decode form = .ok i) :
    s.stepWith p host = execute p host { s with control := rest } i := by
  have hd : s.isDone = false := by simp [isDone, hc]
  rw [stepWith, if_neg (by simp [hd])]
  simp only [hc, hi]

/-! ### What a step does -/

/-- The next step executes an instruction. -/
def State.Executes (s : State) (i : Instruction) : Prop :=
  ∃ id form rest, s.control = .pair id form rest ∧ Instruction.decode form = .ok i

/-- What a call comes down to: a call of the apply marker is one of its first argument. -/
def applied : Value → List Value → Value × List Value
  | .apply, f :: args => applied f args
  | f, args => (f, args)

theorem applied_native (r : NativeRef) (args : List Value) :
    applied (.native r) args = (.native r, args) := by
  unfold applied
  rfl

namespace State

variable {f : Value} {args : List Value} {i : Instruction}

/-- The next step is a call, which comes down to a function and its arguments. -/
def Calls (s : State) (f : Value) (args : List Value) : Prop :=
  ∃ count given g below, s.Executes (.call count) ∧
    takeCall count [] s.stack = some (given, g, below) ∧ applied g given = (f, args)

theorem Executes.exists_execute (h : s.Executes i) (ht : s.step host = .ok t) :
    ∃ rest, execute .unlessDone host { s with control := rest } i = .ok t := by
  obtain ⟨id, form, rest, hc, hi⟩ := h
  rw [step, stepWith_of_decode hc hi] at ht
  exact ⟨rest, ht⟩

theorem call_applied (p : Saving) (s : State) (g : Value) (given : List Value) :
    s.call p host g given = s.call p host (applied g given).1 (applied g given).2 := by
  fun_induction applied g given with
  | case1 f args ih => rw [call, ih]
  | case2 => rfl

/-- A call finds what it calls on the stack, and so its arguments. -/
theorem Calls.mem_stack (h : s.Calls f args) : f ∈ s.stack ∧ ∀ a ∈ args, a ∈ s.stack := by
  obtain ⟨count, given, g, below, _, htake, happlied⟩ := h
  have htaken : ∀ v ∈ g :: given ++ below, v ∈ s.stack := (perm_of_takeCall htake).subset
  rw [List.cons_append, List.forall_mem_cons, List.forall_mem_append] at htaken
  obtain ⟨hg, hgiven, _⟩ := htaken
  clear htake
  fun_induction applied g given with
  | case1 f args ih =>
    rw [List.forall_mem_cons] at hgiven
    exact ih happlied hgiven.1 hgiven.2
  | case2 g given => cases happlied; exact ⟨hg, hgiven⟩

/-- A step that calls is a call, with the operands off the stack. -/
theorem Calls.exists_step (h : s.Calls f args) (host : Host) : ∃ rest below,
    s.step host = call .unlessDone host { s with control := rest, stack := below } f args := by
  obtain ⟨count, given, g, below, ⟨id, form, rest, hc, hi⟩, htake, happlied⟩ := h
  refine ⟨rest, below, ?_⟩
  rw [step, stepWith_of_decode hc hi]
  simp only [execute, htake]
  rw [call_applied, happlied]

theorem Calls.exists_call (h : s.Calls f args) (ht : s.step host = .ok t) :
    ∃ rest below,
      call .unlessDone host { s with control := rest, stack := below } f args = .ok t := by
  obtain ⟨rest, below, hstep⟩ := h.exists_step host
  exact ⟨rest, below, hstep ▸ ht⟩

end State

namespace Steps

theorem single (h : s.stepWith p host = .ok t) : Steps p host 1 s t :=
  .head h (.refl t)

theorem trans (h₁ : Steps p host m s t) (h₂ : Steps p host n t u) :
    Steps p host (m + n) s u := by
  induction h₁ with
  | refl => rwa [Nat.zero_add]
  | head hst _ ih =>
    rw [Nat.add_right_comm]
    exact .head hst (ih h₂)

theorem zero_iff : Steps p host 0 s t ↔ s = t := by
  constructor
  · rintro ⟨⟩
    rfl
  · rintro rfl
    exact .refl s

theorem succ_iff :
    Steps p host (n + 1) s u ↔ ∃ t, s.stepWith p host = .ok t ∧ Steps p host n t u := by
  constructor
  · rintro ⟨⟩
    exact ⟨_, ‹_›, ‹_›⟩
  · rintro ⟨t, hst, htu⟩
    exact .head hst htu

/-- Only a state that is not done has a next step. -/
theorem isDone_eq_false (h : Steps p host (n + 1) s t) : s.isDone = false := by
  cases hd : s.isDone with
  | false => rfl
  | true =>
    obtain ⟨_, hs, _⟩ := succ_iff.1 h
    rw [State.stepWith_of_isDone hd] at hs
    cases hs

/-- The state after a number of steps is determined. -/
theorem unique (h₁ : Steps p host n s t) (h₂ : Steps p host n s u) : t = u := by
  induction h₁ with
  | refl => exact zero_iff.1 h₂
  | head hst _ ih =>
    obtain ⟨_, hst', h₂⟩ := succ_iff.1 h₂
    rw [hst] at hst'
    cases hst'
    exact ih h₂

/-- A run passes through every state that fewer steps reach. -/
theorem sub (h₁ : Steps p host m s t) (h₂ : Steps p host n s u) (hmn : m ≤ n) :
    Steps p host (n - m) t u := by
  induction h₁ generalizing n with
  | refl => exact h₂
  | head hst _ ih =>
    -- The longer run makes at least one step, and it is the same.
    obtain ⟨n, rfl⟩ : ∃ k, n = k + 1 := ⟨n - 1, by omega⟩
    obtain ⟨_, hst', h₂⟩ := succ_iff.1 h₂
    rw [hst] at hst'
    cases hst'
    rw [Nat.add_sub_add_right]
    exact ih h₂ (by omega)

/-- A run passes through a state after any smaller number of steps. -/
theorem exists_of_le (h : Steps p host n s t) (hmn : m ≤ n) : ∃ u, Steps p host m s u := by
  induction h generalizing m with
  | refl s => exact ⟨s, by rw [Nat.le_zero.1 hmn]; exact .refl s⟩
  | @head _ s _ _ hst _ ih =>
    cases m with
    | zero => exact ⟨s, .refl s⟩
    | succ m =>
      obtain ⟨u, hu⟩ := ih (Nat.le_of_succ_le_succ hmn)
      exact ⟨u, .head hst hu⟩

/-- No run goes on from a state whose step fails. -/
theorem le_of_stuck {stop : Stop} (h₁ : Steps p host m s t) (h₂ : Steps p host n s u)
    (hu : u.stepWith p host = .error stop) : m ≤ n := by
  rcases Nat.lt_or_ge n m with hnm | hmn
  · -- The longer run would have a step that goes on from `u`.
    have hut := h₂.sub h₁ (Nat.le_of_lt hnm)
    rw [show m - n = (m - n - 1) + 1 by omega] at hut
    obtain ⟨_, hu', _⟩ := succ_iff.1 hut
    rw [hu] at hu'
    cases hu'
  · exact hmn

end Steps

/-! ### Runs -/

namespace State

theorem run_of_isDone (h : s.isDone = true) : s.run host n = .finished s := by
  unfold run
  rw [if_pos h]

theorem run_succ_of_ok (h : s.step host = .ok t) : s.run host (n + 1) = t.run host n := by
  have hd : s.isDone = false := (Steps.single (p := .unlessDone) h).isDone_eq_false
  rw [run, if_neg (by simp [hd])]
  simp only [h]

theorem run_succ_of_error {stop : Stop} (hd : s.isDone = false)
    (h : s.step host = .error stop) : s.run host (n + 1) = .failed stop := by
  rw [run, if_neg (by simp [hd])]
  simp only [h]

theorem run_zero (hd : s.isDone = false) : s.run host 0 = .unfinished s := by
  rw [run, if_neg (by simp [hd])]

/-- A run goes on from where its first steps lead. -/
theorem run_of_steps (h : Steps .unlessDone host m s t) : s.run host (m + n) = t.run host n := by
  induction h with
  | refl => rw [Nat.zero_add]
  | head hst _ ih => rw [Nat.add_right_comm, run_succ_of_ok hst, ih]

/-- A run of limited length takes steps until it comes to a state that is done,
    to one whose step fails, or to the limit. -/
theorem exists_steps_run (host : Host) (n : Nat) (s : State) :
    ∃ k t, Steps .unlessDone host k s t ∧
      ((k ≤ n ∧ t.isDone = true ∧ s.run host n = .finished t) ∨
        (k < n ∧ t.isDone = false ∧ ∃ stop, t.step host = .error stop ∧
          s.run host n = .failed stop) ∨
        (k = n ∧ t.isDone = false ∧ s.run host n = .unfinished t)) := by
  -- A run takes its first step first, so the limit goes down and the start moves on.
  induction n generalizing s with
  | zero =>
    refine ⟨0, s, .refl s, ?_⟩
    cases hd : s.isDone with
    | true => exact .inl ⟨Nat.le_refl 0, rfl, run_of_isDone hd⟩
    | false => exact .inr (.inr ⟨rfl, rfl, run_zero hd⟩)
  | succ n ih =>
    cases hd : s.isDone with
    | true => exact ⟨0, s, .refl s, .inl ⟨Nat.zero_le _, hd, run_of_isDone hd⟩⟩
    | false =>
      cases hs : s.step host with
      | error stop =>
        exact ⟨0, s, .refl s, .inr (.inl ⟨Nat.succ_pos n, hd, stop, hs, run_succ_of_error hd hs⟩)⟩
      | ok u =>
        obtain ⟨k, t, hut, h⟩ := ih u
        rw [run_succ_of_ok hs]
        refine ⟨k + 1, t, .head hs hut, ?_⟩
        simpa only [Nat.add_le_add_iff_right, Nat.add_lt_add_iff_right, Nat.add_right_cancel_iff]
          using h

theorem run_eq_finished_iff :
    s.run host n = .finished t ↔ ∃ k ≤ n, Steps .unlessDone host k s t ∧ t.isDone = true := by
  constructor
  · intro h
    obtain ⟨k, u, hsu, ⟨hk, hd, hr⟩ | ⟨_, _, _, _, hr⟩ | ⟨_, _, hr⟩⟩ := exists_steps_run host n s
    all_goals rw [h] at hr; cases hr
    exact ⟨k, hk, hsu, hd⟩
  · rintro ⟨k, hk, hst, ht⟩
    rw [show n = k + (n - k) by omega, run_of_steps hst, run_of_isDone ht]

theorem run_eq_failed_iff {stop : Stop} :
    s.run host n = .failed stop ↔
      ∃ k < n, ∃ t, Steps .unlessDone host k s t ∧ t.isDone = false ∧
        t.step host = .error stop := by
  constructor
  · intro h
    obtain ⟨k, u, hsu, ⟨_, _, hr⟩ | ⟨hk, hd, _, hu, hr⟩ | ⟨_, _, hr⟩⟩ := exists_steps_run host n s
    all_goals rw [h] at hr; cases hr
    exact ⟨k, hk, u, hsu, hd, hu⟩
  · rintro ⟨k, hk, t, hst, hd, ht⟩
    rw [show n = k + (n - k - 1 + 1) by omega, run_of_steps hst, run_succ_of_error hd ht]

theorem run_eq_unfinished_iff :
    s.run host n = .unfinished t ↔ Steps .unlessDone host n s t ∧ t.isDone = false := by
  constructor
  · intro h
    obtain ⟨k, u, hsu, ⟨_, _, hr⟩ | ⟨_, _, _, _, hr⟩ | ⟨rfl, hd, hr⟩⟩ := exists_steps_run host n s
    all_goals rw [h] at hr; cases hr
    exact ⟨hsu, hd⟩
  · rintro ⟨hst, ht⟩
    rw [← Nat.add_zero n, run_of_steps hst, run_zero ht]

end State

end ConsMachine
