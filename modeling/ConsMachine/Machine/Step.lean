import ConsMachine.Machine.State
import ConsMachine.Native.Host
import ConsMachine.Instruction

/-!
# Steps of the machine

A step takes the next instruction off the control and executes it. If there is
none, the value on top of the stack is the result of a finished branch or body,
and the continuation beneath it is resumed with that value.

Before a branch or the body of a closure is entered, what remains to be done is
saved as a continuation (`State.save`). The machine saves only if something does
remain (`Saving.unlessDone`): a call in tail position leaves nothing behind. The
plain machine always saves; it is there to compare with.

A call takes its arguments and the value beneath them off the stack. A native's
result is pushed; the body of a closure starts in the environment of the
arguments, followed by what the closure captured. A call of the apply marker is
a call of its first argument.

A step that fails says what it leaves: it has consumed the instruction and,
maybe, operands, and has changed nothing else.
-/

namespace ConsMachine

/-- When to save a continuation. -/
inductive Saving where
  /-- Unless no instructions remain. -/
  | unlessDone
  /-- Always. -/
  | always
  deriving DecidableEq

/-- A step that failed: the error, and the state it leaves. -/
structure Stop where
  error : Error
  left : State

/-- The top `n` entries of a stack in the order they were pushed, in front of
    `above`; the entry beneath them; and the rest of the stack. -/
def takeCall : Nat → List Value → List Value → Option (List Value × Value × List Value)
  | 0, above, f :: below => some (above, f, below)
  | 0, _, [] => none
  | n + 1, above, v :: stack => takeCall n (v :: above) stack
  | _ + 1, _, [] => none

/-- Arguments come back in the order they were pushed. -/
theorem takeCall_length (args above below : List Value) (f : Value) :
    takeCall args.length above (args.reverse ++ f :: below) = some (args ++ above, f, below) := by
  suffices ∀ pushed above : List Value, takeCall pushed.length above (pushed ++ f :: below) =
      some (pushed.reverse ++ above, f, below) by
    simpa using this args.reverse above
  intro pushed
  induction pushed with
  | nil => intro above; rfl
  | cons v pushed ih => intro above; simp [takeCall, ih]

/-- A call lacks operands when the stack has no entry beneath its arguments. -/
theorem takeCall_eq_none_iff {n : Nat} {above stack : List Value} :
    takeCall n above stack = none ↔ stack.length ≤ n := by
  fun_induction takeCall n above stack <;> simp_all

/-- A call finds its function beneath the top `n` entries. -/
theorem takeCall_eq_some_iff {n : Nat} {above stack args below : List Value} {f : Value} :
    takeCall n above stack = some (args, f, below) ↔
      stack.drop n = f :: below ∧ args = (stack.take n).reverse ++ above := by
  fun_induction takeCall n above stack with
  | case1 above f stack =>
    simp only [Option.some.injEq, Prod.mk.injEq, List.drop_zero, List.cons.injEq]
    simp [and_comm, and_left_comm, eq_comm]
  | case2 => simp
  | case3 n above v stack ih => simp [ih]
  | case4 => simp

/-- A call takes its function and arguments off the stack, and nothing else. -/
theorem perm_of_takeCall {n : Nat} {stack args below : List Value} {f : Value}
    (h : takeCall n [] stack = some (args, f, below)) : (f :: args ++ below).Perm stack := by
  obtain ⟨hdrop, rfl⟩ := takeCall_eq_some_iff.1 h
  have hstack : stack.take n ++ f :: below = stack := by rw [← hdrop, List.take_append_drop]
  rw [List.append_nil]
  refine (((List.reverse_perm _).cons f).append_right below).trans ?_
  exact List.perm_middle.symm.trans (.of_eq hstack)

/-- The environment of a closure's body: the first arguments as its parameters,
    with `hasRest` the list of the others, and what the closure captured. With
    it comes the next free identity. -/
def bodyEnv (arity : Nat) (hasRest : Bool) (captured args : List Value) (next : Nat) :
    Except Error (List Value × Nat) :=
  if args.length < arity then .error (.arity arity args.length hasRest)
  else if hasRest then
    let rest := Value.ofList (args.drop arity) .nil next
    .ok (args.take arity ++ rest.1 :: captured, rest.2)
  else if arity < args.length then .error (.arity arity args.length false)
  else .ok (args ++ captured, next)

namespace State

/-- Save what remains to be done as a continuation. -/
def save (p : Saving) (s : State) : State :=
  if p = .unlessDone ∧ s.control.isNil then s
  else
    { s with
      stack := .continuation s.nextContinuation s.control s.env :: s.stack
      nextContinuation := s.nextContinuation + 1 }

@[simp] theorem save_control (p : Saving) (s : State) : (s.save p).control = s.control := by
  unfold save; split <;> rfl

@[simp] theorem save_env (p : Saving) (s : State) : (s.save p).env = s.env := by
  unfold save; split <;> rfl

@[simp] theorem save_globals (p : Saving) (s : State) : (s.save p).globals = s.globals := by
  unfold save; split <;> rfl

@[simp] theorem save_nextObject (p : Saving) (s : State) :
    (s.save p).nextObject = s.nextObject := by
  unfold save; split <;> rfl

/-- Resume the continuation beneath the top of the stack. -/
def resume (s : State) : Except Stop State :=
  match s.stack with
  | v :: .continuation _ control env :: below =>
    .ok { s with control := control, env := env, stack := v :: below }
  | _ :: w :: below => .error ⟨.type (.notContinuation w), { s with stack := below }⟩
  | [_] | [] => .error ⟨.underflow 1 0, { s with stack := [] }⟩

/-- Call `f` with arguments that are off the stack. -/
def call (p : Saving) (host : Host) (s : State) : Value → List Value → Except Stop State
  | .apply, [] => .error ⟨.arity 1 0 true, s⟩
  | .apply, f :: args => call p host s f args
  | .closure _ arity hasRest code captured, args =>
    match bodyEnv arity hasRest captured args s.nextObject with
    | .ok (env, next) =>
      .ok { s.save p with control := code, env := env, nextObject := next }
    | .error e => .error ⟨e, s⟩
  | .native f, args =>
    match host.behaviour f args s.nextObject with
    | .ok (v, next) => .ok { s.push v with nextObject := next }
    | .error e => .error ⟨e, s⟩
  | f, _ => .error ⟨.type (.notCallable f), s⟩

/-- A call changes no globals: only `set-global` does. -/
theorem globals_call {p : Saving} {host : Host} {s t : State} {f : Value} {args : List Value}
    (h : call p host s f args = .ok t) : t.globals = s.globals := by
  fun_induction call p host s f args with
  | case1 => cases h
  | case2 f args ih => exact ih h
  | case3 => cases h; exact save_globals p s
  | case4 => cases h
  | case5 => cases h; rfl
  | case6 => cases h
  | case7 => cases h

/-- Execute an instruction that is off the control. -/
def execute (p : Saving) (host : Host) (s : State) : Instruction → Except Stop State
  | .push v => .ok (s.push v)
  | .pop =>
    match s.stack with
    | _ :: below => .ok { s with stack := below }
    | [] => .error ⟨.underflow 1 0, s⟩
  | .access index =>
    match s.env[index]? with
    | some v => .ok (s.push v)
    | none => .error ⟨.outOfEnvironment index s.env.length, s⟩
  | .closure arity hasRest code =>
    .ok { s.push (.closure s.nextObject arity hasRest code s.env) with
      nextObject := s.nextObject + 1 }
  | .call count =>
    match takeCall count [] s.stack with
    | some (args, f, below) => call p host { s with stack := below } f args
    | none => .error ⟨.underflow (count + 1) s.stack.length, s⟩
  | .branch thenCode elseCode =>
    match s.stack with
    | test :: below =>
      .ok { save p { s with stack := below } with
        control := if test.isTrue then thenCode else elseCode }
    | [] => .error ⟨.underflow 1 0, s⟩
  | .getGlobal name =>
    match s.globals.get name with
    | .ok v => .ok (s.push v)
    | .error e => .error ⟨e, s⟩
  | .setGlobal name =>
    match s.stack with
    | v :: _ => .ok { s with globals := s.globals.bind name v }
    | [] => .error ⟨.underflow 1 0, s⟩

/-- One step, with a policy for saving. -/
def stepWith (p : Saving) (host : Host) (s : State) : Except Stop State :=
  if s.isDone then .error ⟨.misuse .stepAfterEnd, s⟩
  else
    match s.control with
    | .nil => s.resume
    | .pair _ form rest =>
      match Instruction.decode form with
      | .ok i => execute p host { s with control := rest } i
      | .error e => .error ⟨e, { s with control := rest }⟩
    | v => .error ⟨.malformed .notList v, s⟩

/-- One step of the machine. -/
def step (host : Host) (s : State) : Except Stop State :=
  stepWith .unlessDone host s

end State

end ConsMachine
