import ConsMachine.Proofs.Steps

/-!
# Steps that fail

A step that fails has consumed something and done nothing else. What it leaves
depends only on how far it came (`step_eq_error`):

* a state that is done, and a control that is no list, are left as they are;
* a form that is no instruction is off the control, and so is an instruction that
  fails, with the stack untouched;
* a call that finds its operands has taken them off too, whatever it fails for: the
  arguments and the function, and no more;
* a value above something other than a continuation is off the stack together with
  what is beneath it.

The environment and the globals never change, nothing is pushed, and no identity is
used up.
-/

namespace ConsMachine

variable {p : Saving} {host : Host} {s : State} {stop : Stop}

namespace State

/-- `left` is `s` with the next instruction off the control, or not, and with some
    entries off the stack, or none; everything else is the same. -/
structure Consumed (s left : State) : Prop where
  control : left.control = s.control ∨ ∃ id form, s.control = .pair id form left.control
  stack : left.stack <:+ s.stack
  env : left.env = s.env
  globals : left.globals = s.globals
  nextObject : left.nextObject = s.nextObject
  nextContinuation : left.nextContinuation = s.nextContinuation

theorem Consumed.refl (s : State) : s.Consumed s :=
  ⟨.inl rfl, List.suffix_refl _, rfl, rfl, rfl, rfl⟩

/-- A call that fails leaves the state in which its operands are off the stack: what
    is saved, and what the environment of a body is made of, comes with success. -/
theorem left_call {f : Value} {args : List Value} (h : call p host s f args = .error stop) :
    stop.left = s := by
  fun_induction call p host s f args with
  | case1 => cases h; rfl
  | case2 f args ih => exact ih h
  | case3 => cases h
  | case4 => cases h; rfl
  | case5 => cases h
  | case6 => cases h; rfl
  | case7 => cases h; rfl

/-- A call that finds its operands takes them off, one entry more than its arguments. -/
theorem drop_of_takeCall {n : Nat} {stack args below : List Value} {f : Value}
    (h : takeCall n [] stack = some (args, f, below)) :
    n < stack.length ∧ stack.drop (n + 1) = below := by
  obtain ⟨hdrop, _⟩ := takeCall_eq_some_iff.1 h
  constructor
  · refine Nat.lt_of_not_le fun hle => ?_
    rw [List.drop_eq_nil_of_le hle] at hdrop
    cases hdrop
  · rw [← List.drop_drop, hdrop]
    rfl

/-- An instruction that fails leaves the stack as it was, unless it is a call that
    found its operands. -/
theorem left_execute {i : Instruction} (h : execute p host s i = .error stop) :
    ((∀ count, i = .call count → s.stack.length ≤ count) → stop.left = s) ∧
      ∀ count, i = .call count → count < s.stack.length →
        stop.left = { s with stack := s.stack.drop (count + 1) } := by
  cases i with
  | push v => cases h
  | closure arity hasRest code => cases h
  | pop | branch | setGlobal | access | getGlobal =>
    simp only [execute] at h
    split at h
    · cases h
    · cases h
      exact ⟨fun _ => rfl, by rintro _ ⟨⟩⟩
  | call n =>
    simp only [execute] at h
    split at h
    · rename_i args f below hc
      obtain ⟨hlt, hdrop⟩ := drop_of_takeCall hc
      refine ⟨fun hle => absurd (hle n rfl) (Nat.not_le.2 hlt), ?_⟩
      rintro _ ⟨⟩ _
      rw [left_call h, hdrop]
    · rename_i hc
      cases h
      refine ⟨fun _ => rfl, ?_⟩
      rintro _ ⟨⟩ hlt
      exact absurd (takeCall_eq_none_iff.1 hc) (Nat.not_le.2 hlt)

theorem exists_left_execute {i : Instruction} (h : execute p host s i = .error stop) :
    ∃ n, stop.left = { s with stack := s.stack.drop n } := by
  by_cases hcall : ∃ n, i = .call n ∧ n < s.stack.length
  · obtain ⟨n, hi, hn⟩ := hcall
    exact ⟨n + 1, (left_execute h).2 n hi hn⟩
  · exact ⟨0, (left_execute h).1 fun n hi => Nat.le_of_not_lt fun hn => hcall ⟨n, hi, hn⟩⟩

/-- Where the instructions have run out before the run is done, two entries are there
    to be taken off. -/
theorem resume_eq_error (hd : s.isDone = false) (hc : s.control = .nil)
    (h : s.resume = .error stop) :
    ∃ v w below, s.stack = v :: w :: below ∧
      stop = ⟨.type (.notContinuation w), { s with stack := below }⟩ := by
  have hdepth : ¬ s.stack.length ≤ 1 := fun hle => by
    rw [isDone_iff.2 ⟨hc, hle⟩] at hd
    cases hd
  unfold resume at h
  split at h
  · cases h
  · rename_i v w below _ hs
    cases h
    exact ⟨v, w, below, hs, rfl⟩
  · rename_i hs
    simp [hs] at hdepth
  · rename_i hs
    simp [hs] at hdepth

theorem stepWith_of_notList (hnil : s.control.isNil = false) (hpair : s.control.isPair = false) :
    s.stepWith p host = .error ⟨.malformed .notList s.control, s⟩ := by
  unfold stepWith
  cases hc : s.control with
  | nil => rw [hc] at hnil; cases hnil
  | pair => rw [hc] at hpair; cases hpair
  | _ => simp [isDone, hc]

/-- With a form that is no instruction on the control, the machine only drops it. -/
theorem stepWith_of_decode_error {id : Nat} {form rest : Value} {fault : Error}
    (hc : s.control = .pair id form rest) (hi : Instruction.decode form = .error fault) :
    s.stepWith p host = .error ⟨fault, { s with control := rest }⟩ := by
  have hd : s.isDone = false := by simp [isDone, hc]
  rw [stepWith, if_neg (by simp [hd])]
  simp only [hc, hi]

theorem stepWith_of_nil (hd : s.isDone = false) (hc : s.control = .nil) :
    s.stepWith p host = s.resume := by
  rw [stepWith, if_neg (by simp [hd])]
  simp only [hc]

/-- Whatever a step fails for, it has only consumed. -/
theorem consumed_of_stepWith (h : s.stepWith p host = .error stop) : s.Consumed stop.left := by
  cases hd : s.isDone with
  | true =>
    rw [stepWith_of_isDone hd] at h
    cases h
    exact .refl s
  | false =>
    cases hc : s.control with
    | nil =>
      rw [stepWith_of_nil hd hc] at h
      obtain ⟨v, w, below, hs, rfl⟩ := resume_eq_error hd hc h
      exact ⟨.inl rfl, hs ▸ List.suffix_append [v, w] below, rfl, rfl, rfl, rfl⟩
    | pair id form rest =>
      cases hi : Instruction.decode form with
      | error fault =>
        rw [stepWith_of_decode_error hc hi] at h
        cases h
        exact ⟨.inr ⟨id, form, hc⟩, List.suffix_refl _, rfl, rfl, rfl, rfl⟩
      | ok i =>
        rw [stepWith_of_decode hc hi] at h
        obtain ⟨n, hleft⟩ := exists_left_execute h
        rw [hleft]
        exact ⟨.inr ⟨id, form, hc⟩, List.drop_suffix n _, rfl, rfl, rfl, rfl⟩
    | _ =>
      rw [stepWith_of_notList (by simp [hc, Value.isNil]) (by simp [hc, Value.isPair])] at h
      cases h
      exact .refl s

end State

/-- A step that fails only consumes. Whatever the state, the environment and the
    globals are unchanged, the stack has lost entries at most, and the control is the
    same or its rest. More exactly: at the end of a run, and where the control is no
    list, nothing changes; a form that is no instruction and an instruction that fails
    are off the control and the stack is unchanged, except that a call with its `n`
    arguments and a function on the stack has taken these `n + 1` entries off; and
    where the instructions have run out, two entries are off the stack, of which the
    lower is no continuation: there are always two. -/
theorem step_eq_error (h : s.step host = .error stop) :
    s.Consumed stop.left ∧
      (s.isDone = true → stop = ⟨.misuse .stepAfterEnd, s⟩) ∧
      (s.control.isNil = false → s.control.isPair = false →
        stop = ⟨.malformed .notList s.control, s⟩) ∧
      (∀ id form rest, s.control = .pair id form rest →
        (∀ fault, Instruction.decode form = .error fault →
          stop = ⟨fault, { s with control := rest }⟩) ∧
        (∀ i, Instruction.decode form = .ok i →
          (∀ n, i = .call n → s.stack.length ≤ n) →
            stop.left = { s with control := rest }) ∧
        ∀ n, Instruction.decode form = .ok (.call n) → n < s.stack.length →
          stop.left = { s with control := rest, stack := s.stack.drop (n + 1) }) ∧
      (s.isDone = false → s.control = .nil →
        ∃ v w below, s.stack = v :: w :: below ∧
          stop = ⟨.type (.notContinuation w), { s with stack := below }⟩) := by
  rw [State.step] at h
  refine ⟨State.consumed_of_stepWith h, fun hd => ?_, fun hnil hpair => ?_,
    fun id form rest hc => ⟨fun fault hi => ?_, fun i hi hlacks => ?_, fun n hi hn => ?_⟩,
    fun hd hc => ?_⟩
  · rw [State.stepWith_of_isDone hd] at h
    exact (Except.error.inj h).symm
  · rw [State.stepWith_of_notList hnil hpair] at h
    exact (Except.error.inj h).symm
  · rw [State.stepWith_of_decode_error hc hi] at h
    exact (Except.error.inj h).symm
  · rw [State.stepWith_of_decode hc hi] at h
    exact (State.left_execute h).1 hlacks
  · rw [State.stepWith_of_decode hc hi] at h
    exact (State.left_execute h).2 n rfl hn
  · rw [State.stepWith_of_nil hd hc] at h
    exact State.resume_eq_error hd hc h

open Instruction in
/-- A call by way of the apply marker of a function that takes one argument more: the
    marker and its two arguments are gone, and what lies beneath is not. -/
theorem step_eq_error_applied :
    let f : Value := .closure 0 2 false .nil []
    let rest := (encodeAll [pop] 10).1
    let s : State := ⟨.pair 20 ((call 2).encode 21).1 rest,
      [.number 2, f, .apply, .number 9], [.nil], .empty, 50, 3⟩
    let left : State := ⟨rest, [.number 9], [.nil], .empty, 50, 3⟩
    s.step .bare = .error ⟨.arity 2 1 false, left⟩ ∧ s.Consumed left ∧
      left = { s with control := rest, stack := s.stack.drop 3 } := by
  intro f rest s left
  have h : s.step .bare = .error ⟨.arity 2 1 false, left⟩ := rfl
  obtain ⟨hconsumed, _, _, hform, _⟩ := step_eq_error h
  exact ⟨h, hconsumed, (hform _ _ rest rfl).2.2 2 rfl (by decide)⟩

end ConsMachine
