import ConsMachine.Proofs.Balanced
import ConsMachine.Proofs.Pending

/-!
# The code that a run can execute

Programs are values, and a program can build any list it likes. Yet a run never
executes a list that it built: the blocks of code are there when it starts. They
are what can be found without running anything, in the program and in the values
around it (`Block`): the program itself and what remains of it behind each
instruction, the branches and bodies written in it, and the code of the functions
and continuations given to it (`Given`).

Whatever the run does, balanced or not, and also behind steps that fail, the
machine runs a block, the functions within its reach have blocks for their code,
and so do the continuations (`reached_blocks`). A continuation that was not given
was made by the run, and has something left to run.

The natives must not make functions out of nothing: what they return has no other
functions and continuations in it than their arguments (`Native.PassesOn`).
Built-in natives are like this (`Builtin.passesOn_run`).
-/

namespace ConsMachine

/-! ### Parts of a value -/

/-- What can be got from a value by taking pairs apart and looking up what functions
    and continuations have captured. -/
inductive Part : Value → Value → Prop
  | self (v : Value) : Part v v
  | car {w a d : Value} {id : Nat} : Part w a → Part w (.pair id a d)
  | cdr {w a d : Value} {id : Nat} : Part w d → Part w (.pair id a d)
  | closure {w v code : Value} {id arity : Nat} {hasRest : Bool} {env : List Value} :
      v ∈ env → Part w v → Part w (.closure id arity hasRest code env)
  | continuation {w v control : Value} {id : Nat} {env : List Value} :
      v ∈ env → Part w v → Part w (.continuation id control env)

/-- The code of a function or a continuation. -/
def Value.code? : Value → Option Value
  | closure _ _ _ code _ => some code
  | continuation _ control _ => some control
  | _ => none

/-- The values of a state: on the stack, in the environment and in the globals. -/
inductive State.Holds (s : State) : Value → Prop
  | stack {v : Value} : v ∈ s.stack → Holds s v
  | env {v : Value} : v ∈ s.env → Holds s v
  | globals {name : String} {v : Value} : s.globals.find? name = some v → Holds s v

/-! ### Blocks -/

mutual

/-- The blocks of code of a run that starts from `start`. -/
inductive Block (start : State) : Value → Prop
  | program : Block start start.control
  | code {w code : Value} : Given start w → w.code? = some code → Block start code
  | rest {id : Nat} {form rest : Value} : Block start (.pair id form rest) → Block start rest
  | thenCode {id : Nat} {form rest thenCode elseCode : Value} : Block start (.pair id form rest) →
      Instruction.decode form = .ok (.branch thenCode elseCode) → Block start thenCode
  | elseCode {id : Nat} {form rest thenCode elseCode : Value} : Block start (.pair id form rest) →
      Instruction.decode form = .ok (.branch thenCode elseCode) → Block start elseCode
  | body {id arity : Nat} {hasRest : Bool} {form rest code : Value} :
      Block start (.pair id form rest) →
      Instruction.decode form = .ok (.closure arity hasRest code) → Block start code

/-- What is given to a run that starts from `start`: the parts of the values that
    the state holds, and of those that its blocks push. -/
inductive Given (start : State) : Value → Prop
  | held {v w : Value} : start.Holds v → Part w v → Given start w
  | pushed {id : Nat} {form rest v w : Value} : Block start (.pair id form rest) →
      Instruction.decode form = .ok (.push v) → Part w v → Given start w

end

/-- The states that a run comes to. A step that fails leaves a state too, from which
    the machine can be told to go on. -/
inductive Reached (host : Host) (start : State) : State → Prop
  | start : Reached host start start
  | ok {s t : State} : Reached host start s → s.step host = .ok t → Reached host start t
  | failed {s : State} {stop : Stop} : Reached host start s → s.step host = .error stop →
      Reached host start stop.left

/-! ### Natives -/

/-- A native returns no functions and no continuations but those in its arguments. -/
def Native.PassesOn (f : Native) : Prop :=
  ∀ args next v next', f args next = .ok (v, next') →
    ∀ w, Part w v → w.code?.isSome → ∃ a ∈ args, Part w a

/-- No native of a host returns functions or continuations but those in its
    arguments. -/
def Host.PassesOn (host : Host) : Prop :=
  ∀ f ∈ host.natives, f.PassesOn

theorem Host.passesOn_bare : Host.bare.PassesOn :=
  fun f hf => absurd hf (Array.not_mem_empty f)

/-- The values among converted arguments. -/
def Arguments.values : (ts : List ParamType) → Arguments ts → List Value
  | [], _ => []
  | .value :: ts, (v, as) => v :: values ts as
  | .number :: ts, (_, as) => values ts as
  | .boolean :: ts, (_, as) => values ts as
  | .symbol :: ts, (_, as) => values ts as

/-- Conversion makes no values. -/
theorem Arguments.values_subset {ts : List ParamType} {vs rest : List Value}
    {hle : ts.length ≤ vs.length} {as : Arguments ts}
    (h : Arguments.take ts vs hle = .ok (as, rest)) : values ts as ⊆ vs := by
  fun_induction Arguments.take ts vs hle with
  | case1 => exact List.nil_subset _
  | case2 t ts v vs hle ih =>
    cases ha : t.convert v with
    | error e => rw [ha] at h; cases h
    | ok a =>
      cases hr : Arguments.take ts vs (Nat.le_of_succ_le_succ hle) with
      | error e => rw [ha, hr] at h; cases h
      | ok r =>
        rw [ha, hr] at h
        cases h
        have hsub : values ts r.1 ⊆ v :: vs := List.subset_cons_of_subset v (ih hr)
        cases t with
        | value =>
          cases ha
          exact List.cons_subset.2 ⟨List.mem_cons_self, hsub⟩
        | _ => exact hsub

/-- What a built-in native returns: a fresh pair of its arguments, a half of its only
    argument, a boolean or a number. With it comes the next free identity. -/
inductive Builtin.Returns (next : Nat) : List Value → Value × Nat → Prop
  | pair (a d : Value) : Returns next [a, d] (.pair next a d, next + 1)
  | car (id : Nat) (a d : Value) : Returns next [.pair id a d] (a, next)
  | cdr (id : Nat) (a d : Value) : Returns next [.pair id a d] (d, next)
  | bool (args : List Value) (b : Bool) : Returns next args (.bool b, next)
  | number (args : List Value) (n : Int64) : Returns next args (.number n, next)

theorem Builtin.returns_of_run {op : Builtin} {args : List Value} {next : Nat} {r : Value × Nat}
    (h : op.run args next = .ok r) : Returns next args r := by
  cases op <;> rw [run] at h
  case cons =>
    rcases args with _ | ⟨a, _ | ⟨d, _ | _⟩⟩
    · cases h
    · cases h
    · cases h
      exact .pair a d
    · cases h
  case car =>
    rcases args with _ | ⟨v, _ | _⟩
    · cases h
    · cases v with
      | pair id a d => cases h; exact .car id a d
      | _ => cases h
    · cases h
  case cdr =>
    rcases args with _ | ⟨v, _ | _⟩
    · cases h
    · cases v with
      | pair id a d => cases h; exact .cdr id a d
      | _ => cases h
    · cases h
  case isSymbol | isPair | isAtom | isSame =>
    obtain ⟨as, _, _, _, hbody⟩ := Native.typed_eq_ok h
    cases hbody
    exact .bool args _
  case add =>
    obtain ⟨⟨a, b, ⟨⟩⟩, _, _, _, hbody⟩ := Native.typed_eq_ok h
    cases hn : Number.add? a b with
    | none => simp only [hn] at hbody; cases hbody
    | some n => simp only [hn] at hbody; cases hbody; exact .number args n
  case sub =>
    obtain ⟨⟨a, b, ⟨⟩⟩, _, _, _, hbody⟩ := Native.typed_eq_ok h
    cases hn : Number.sub? a b with
    | none => simp only [hn] at hbody; cases hbody
    | some n => simp only [hn] at hbody; cases hbody; exact .number args n

/-- The built-in natives make no functions and no continuations. -/
theorem Builtin.passesOn_run (op : Builtin) : op.run.PassesOn := by
  intro args next v next' hv w hw hcode
  cases returns_of_run hv with
  | pair a d =>
    cases hw with
    | self => cases hcode
    | car hw => exact ⟨a, List.mem_cons_self, hw⟩
    | cdr hw => exact ⟨d, List.mem_cons_of_mem a List.mem_cons_self, hw⟩
  | car => exact ⟨_, List.mem_cons_self, .car hw⟩
  | cdr => exact ⟨_, List.mem_cons_self, .cdr hw⟩
  | bool | number =>
    cases hw
    cases hcode

/-- On a host whose own natives pass on what they are given, all do. -/
theorem Host.PassesOn.behaviour {host : Host} (h : host.PassesOn) (f : NativeRef) :
    (host.behaviour f).PassesOn :=
  Host.forall_behaviour Builtin.passesOn_run h (by rintro e args next v next' ⟨⟩) f

/-! ### Traced values -/

/-- A function or continuation whose code is a block; a continuation that was given,
    or was made by the run with something left to run. -/
def Traced (start : State) : Value → Prop
  | .closure _ _ _ code _ => Block start code
  | .continuation id control env => Block start control ∧
      (Given start (.continuation id control env) ∨
        control ≠ .nil ∧ start.nextContinuation ≤ id)
  | _ => True

/-- All parts of a value are traced. -/
def PartsTraced (start : State) (v : Value) : Prop :=
  ∀ w, Part w v → Traced start w

variable {host : Host} {start s t : State} {v : Value}

theorem Given.traced {w : Value} (h : Given start w) : Traced start w := by
  cases w with
  | closure => exact .code h rfl
  | continuation => exact ⟨.code h rfl, .inl h⟩
  | _ => trivial

/-- Whatever is no function and no continuation is traced. -/
theorem Traced.of_code? {w : Value} (h : w.code?.isSome = false) : Traced start w := by
  cases w with
  | closure => cases h
  | continuation => cases h
  | _ => trivial

theorem Traced.block {w code : Value} (h : Traced start w) (hcode : w.code? = some code) :
    Block start code := by
  cases w with
  | closure => cases hcode; exact h
  | continuation => cases hcode; exact h.1
  | _ => cases hcode

namespace PartsTraced

theorem of_held (h : start.Holds v) : PartsTraced start v :=
  fun _ hw => (Given.held h hw).traced

theorem nil : PartsTraced start .nil := by
  rintro _ ⟨⟩
  trivial

theorem pair {id : Nat} {a d : Value} (ha : PartsTraced start a) (hd : PartsTraced start d) :
    PartsTraced start (.pair id a d) := by
  intro w hw
  cases hw with
  | self => trivial
  | car hw => exact ha w hw
  | cdr hw => exact hd w hw

theorem closure {id arity : Nat} {hasRest : Bool} {code : Value} {env : List Value}
    (hcode : Block start code) (he : ∀ v ∈ env, PartsTraced start v) :
    PartsTraced start (.closure id arity hasRest code env) := by
  intro w hw
  cases hw with
  | self => exact hcode
  | closure hv hw => exact he _ hv w hw

theorem continuation {id : Nat} {control : Value} {env : List Value}
    (hcontrol : Block start control) (hne : control ≠ .nil) (hid : start.nextContinuation ≤ id)
    (he : ∀ v ∈ env, PartsTraced start v) :
    PartsTraced start (.continuation id control env) := by
  intro w hw
  cases hw with
  | self => exact ⟨hcontrol, .inr ⟨hne, hid⟩⟩
  | continuation hv hw => exact he _ hv w hw

/-- The code of a traced function is a block. -/
theorem block {code : Value} (h : PartsTraced start v) (hcode : v.code? = some code) :
    Block start code :=
  (h v (.self v)).block hcode

/-- What a function has captured is traced with it. -/
theorem captured {id arity : Nat} {hasRest : Bool} {code : Value} {env : List Value}
    (h : PartsTraced start (.closure id arity hasRest code env)) :
    ∀ v ∈ env, PartsTraced start v :=
  fun _ hv w hw => h w (.closure hv hw)

theorem saved {id : Nat} {control : Value} {env : List Value}
    (h : PartsTraced start (.continuation id control env)) : ∀ v ∈ env, PartsTraced start v :=
  fun _ hv w hw => h w (.continuation hv hw)

theorem ofList {vs : List Value} (h : ∀ v ∈ vs, PartsTraced start v) (next : Nat) :
    PartsTraced start (Value.ofList vs .nil next).1 := by
  induction vs with
  | nil => exact nil
  | cons v vs ih =>
    rw [List.forall_mem_cons] at h
    exact pair h.1 (ih h.2)

theorem bodyEnv {arity next next' : Nat} {hasRest : Bool} {captured args env : List Value}
    (h : bodyEnv arity hasRest captured args next = .ok (env, next'))
    (hc : ∀ v ∈ captured, PartsTraced start v) (ha : ∀ v ∈ args, PartsTraced start v) :
    ∀ v ∈ env, PartsTraced start v :=
  forall_mem_bodyEnv h hc ha fun _ next hvs => ofList hvs next

/-- What a native returns is traced if its arguments are. -/
theorem of_behaviour (hh : host.PassesOn) {f : NativeRef} {args : List Value} {next next' : Nat}
    (ha : ∀ a ∈ args, PartsTraced start a)
    (h : host.behaviour f args next = .ok (v, next')) : PartsTraced start v := by
  intro w hw
  cases hcode : w.code?.isSome with
  | false => exact .of_code? hcode
  | true =>
    obtain ⟨a, hmem, hpart⟩ := hh.behaviour f args next v next' h w hw hcode
    exact ha a hmem w hpart

end PartsTraced

/-! ### Steps -/

/-- A state that runs a block, and all of whose values are traced. -/
structure Confined (start t : State) : Prop where
  control : Block start t.control
  stack : ∀ v ∈ t.stack, PartsTraced start v
  env : ∀ v ∈ t.env, PartsTraced start v
  globals : ∀ name v, t.globals.find? name = some v → PartsTraced start v
  nextContinuation : start.nextContinuation ≤ t.nextContinuation

/-- An instruction as it stands in a block. -/
def Licensed (start : State) : Instruction → Prop
  | .push v => PartsTraced start v
  | .closure _ _ code => Block start code
  | .branch thenCode elseCode => Block start thenCode ∧ Block start elseCode
  | _ => True

theorem Block.licensed {id : Nat} {form rest : Value} {i : Instruction}
    (h : Block start (.pair id form rest)) (hi : Instruction.decode form = .ok i) :
    Licensed start i := by
  cases i with
  | push v => exact fun w hw => (Given.pushed h hi hw).traced
  | closure => exact .body h hi
  | branch => exact ⟨.thenCode h hi, .elseCode h hi⟩
  | _ => trivial

/-- The state after a step, also after one that failed. -/
def State.after : Except Stop State → State
  | .ok t => t
  | .error stop => stop.left

namespace Confined

theorem holds (h : Confined start s) (hv : s.Holds v) : PartsTraced start v := by
  cases hv with
  | stack hv => exact h.stack v hv
  | env hv => exact h.env v hv
  | globals hv => exact h.globals _ v hv

theorem with_control (h : Confined start s) {code : Value} (hcode : Block start code) :
    Confined start { s with control := code } :=
  ⟨hcode, h.stack, h.env, h.globals, h.nextContinuation⟩

theorem with_stack (h : Confined start s) {stack : List Value}
    (hstack : ∀ v ∈ stack, PartsTraced start v) : Confined start { s with stack := stack } :=
  ⟨h.control, hstack, h.env, h.globals, h.nextContinuation⟩

theorem with_nextObject (h : Confined start s) (next : Nat) :
    Confined start { s with nextObject := next } :=
  ⟨h.control, h.stack, h.env, h.globals, h.nextContinuation⟩

theorem push (h : Confined start s) (hv : PartsTraced start v) : Confined start (s.push v) :=
  h.with_stack (List.forall_mem_cons.2 ⟨hv, h.stack⟩)

/-- The machine saves a continuation only if something is left to run. -/
theorem save (h : Confined start s) : Confined start (s.save .unlessDone) := by
  by_cases hc : s.control = .nil
  · rwa [State.save, if_pos ⟨rfl, Value.isNil_iff.2 hc⟩]
  · rw [State.save, if_neg fun hp => hc (Value.isNil_iff.1 hp.2)]
    have hcont := PartsTraced.continuation h.control hc h.nextContinuation h.env
    exact ⟨h.control, List.forall_mem_cons.2 ⟨hcont, h.stack⟩, h.env, h.globals,
      Nat.le_succ_of_le h.nextContinuation⟩

theorem resume (h : Confined start s) : Confined start (State.after s.resume) := by
  have hstack := h.stack
  unfold State.resume
  split
  · rename_i hs
    rw [hs, List.forall_mem_cons, List.forall_mem_cons] at hstack
    obtain ⟨hv, hcont, hbelow⟩ := hstack
    exact ⟨hcont.block rfl, List.forall_mem_cons.2 ⟨hv, hbelow⟩, hcont.saved, h.globals,
      h.nextContinuation⟩
  · rename_i hs
    rw [hs, List.forall_mem_cons, List.forall_mem_cons] at hstack
    exact h.with_stack hstack.2.2
  · exact h.with_stack (by simp)
  · exact h.with_stack (by simp)

theorem call (hh : host.PassesOn) (h : Confined start s) {f : Value} {args : List Value}
    (hf : PartsTraced start f) (ha : ∀ a ∈ args, PartsTraced start a) :
    Confined start (State.after (s.call .unlessDone host f args)) := by
  fun_induction State.call .unlessDone host s f args with
  | case1 => exact h
  | case2 f args ih =>
    rw [List.forall_mem_cons] at ha
    exact ih ha.1 ha.2
  | case3 id arity hasRest code captured args env next hb =>
    exact ⟨hf.block rfl, h.save.stack, .bodyEnv hb hf.captured ha, h.save.globals,
      h.save.nextContinuation⟩
  | case4 => exact h
  | case5 f args v next hv => exact (h.push (.of_behaviour hh ha hv)).with_nextObject next
  | case6 => exact h
  | case7 => exact h

theorem execute (hh : host.PassesOn) (h : Confined start s) {i : Instruction}
    (hi : Licensed start i) : Confined start (State.after (s.execute .unlessDone host i)) := by
  have hstack := h.stack
  cases i with
  | push v => exact h.push hi
  | pop =>
    simp only [State.execute]
    split
    · rename_i hs
      rw [hs, List.forall_mem_cons] at hstack
      exact h.with_stack hstack.2
    · exact h
  | access index =>
    simp only [State.execute]
    split
    · rename_i hv
      exact h.push (h.env _ (List.mem_of_getElem? hv))
    · exact h
  | closure arity hasRest code => exact (h.push (.closure hi h.env)).with_nextObject _
  | call count =>
    simp only [State.execute]
    split
    · rename_i args f below hc
      have htaken : ∀ v ∈ f :: args ++ below, PartsTraced start v := fun v hv =>
        hstack v ((perm_of_takeCall hc).subset hv)
      rw [List.cons_append, List.forall_mem_cons, List.forall_mem_append] at htaken
      exact (h.with_stack htaken.2.2).call hh htaken.1 htaken.2.1
    · exact h
  | branch thenCode elseCode =>
    simp only [State.execute]
    split
    · rename_i test below hs
      rw [hs, List.forall_mem_cons] at hstack
      refine (h.with_stack hstack.2).save.with_control ?_
      split
      · exact hi.1
      · exact hi.2
    · exact h
  | getGlobal name =>
    simp only [State.execute]
    split
    · rename_i v hv
      exact h.push (h.globals name v (Globals.get_eq_ok_iff.1 hv))
    · exact h
  | setGlobal name =>
    simp only [State.execute]
    split
    · rename_i v below hs
      rw [hs, List.forall_mem_cons] at hstack
      refine ⟨h.control, h.stack, h.env, fun other w hw => ?_, h.nextContinuation⟩
      replace hw : (s.globals.bind name v).find? other = some w := hw
      rw [Globals.find?_bind] at hw
      split at hw
      · cases hw
        exact hstack.1
      · exact h.globals other w hw
    · exact h

/-- A step leaves a state confined, whether it succeeds or fails. -/
theorem step (hh : host.PassesOn) (h : Confined start s) :
    Confined start (State.after (s.step host)) := by
  unfold State.step State.stepWith
  split
  · exact h
  split
  · exact h.resume
  · rename_i id form rest hc
    have hblock : Block start (.pair id form rest) := hc ▸ h.control
    have hrest := h.with_control hblock.rest
    split
    · rename_i hi
      exact hrest.execute hh (hblock.licensed hi)
    · exact hrest
  · exact h

/-- At the start, everything is given. -/
theorem refl (start : State) : Confined start start where
  control := .program
  stack _ hv := .of_held (.stack hv)
  env _ hv := .of_held (.env hv)
  globals _ _ hv := .of_held (.globals hv)
  nextContinuation := Nat.le_refl _

/-- By induction on the steps, failed ones among them. -/
theorem of_reached (hh : host.PassesOn) (h : Reached host start t) : Confined start t := by
  induction h with
  | start => exact .refl start
  | ok _ hst ih =>
    have hstep := ih.step hh
    rwa [hst] at hstep
  | failed _ hst ih =>
    have hstep := ih.step hh
    rwa [hst] at hstep

end Confined

/-- The instruction whose turn it is. -/
def State.dispatched? (s : State) : Option Value :=
  match s.control with
  | .pair _ form _ => some form
  | _ => none

/-- Data is never executed as code. For any program, from any stack, environment and
    globals, and with natives that pass on only the functions and continuations they
    are given: wherever the run comes to, also behind failed steps, it runs one of the
    blocks that were there at the start; the functions and continuations within its
    reach have such blocks for their code; a continuation that was not given has
    something left to run, and so has each one at the step that makes it; and the
    instruction whose turn it is stands in a block. -/
theorem reached_blocks (hh : host.PassesOn) (h : Reached host start t) :
    Block start t.control ∧
      (∀ v w code, t.Holds v → Part w v → w.code? = some code → Block start code) ∧
      (∀ v id control env, t.Holds v → Part (.continuation id control env) v →
        Given start (.continuation id control env) ∨
          control ≠ .nil ∧ start.nextContinuation ≤ id) ∧
      (∀ u, t.step host = .ok u → u.nextContinuation ≠ t.nextContinuation →
        ∃ id control env below, control ≠ .nil ∧
          u.stack = .continuation id control env :: below) ∧
      ∀ form, t.dispatched? = some form → ∃ id rest, Block start (.pair id form rest) := by
  have hconfined := Confined.of_reached hh h
  refine ⟨hconfined.control, fun v w code hv hw hcode => ?_, fun v id control env hv hw => ?_,
    fun u hu hne => ?_, fun form hform => ?_⟩
  · exact (hconfined.holds hv w hw).block hcode
  · exact (hconfined.holds hv _ hw).2
  · have hsaves : t.saves = true := by
      refine eq_true_of_ne_false fun hfalse => hne ?_
      rw [State.nextContinuation_step hu, hfalse]
      rfl
    obtain ⟨id, control, env, hcontrol, hstack⟩ := State.stack_step_of_saves hsaves hu
    exact ⟨id, control, env, _, hcontrol, hstack⟩
  · unfold State.dispatched? at hform
    split at hform
    · rename_i id form' rest hc
      cases hform
      exact ⟨id, rest, hc ▸ hconfined.control⟩
    · cases hform

open Instruction in
/-- A run goes on behind a failed step and calls a function that it made. The body is a
    block, and so is what the call left for later. -/
theorem reached_blocks_call :
    let body := (encodeAll [push (.number 1)] 0).1
    let later := (encodeAll [pop] 10).1
    let made := (Value.ofList [((closure 0 false body).encode 20).1, ((call 0).encode 30).1]
      later 40).1
    let start : State := ⟨.pair 42 (pop.encode 43).1 made, [], [], .empty, 50, 0⟩
    ∃ t env id, (Host.bare.PassesOn ∧ Reached .bare start t) ∧ t.control = body ∧
      t.stack = [.continuation id later env] ∧ Block start body ∧ Block start later := by
  intro body later made start
  have hpop : Reached .bare start ⟨made, [], [], .empty, 50, 0⟩ :=
    @Reached.failed _ _ start ⟨.underflow 1 0, ⟨made, [], [], .empty, 50, 0⟩⟩ .start rfl
  have hcall : Reached .bare start ⟨body, [.continuation 0 later []], [], .empty, 51, 1⟩ :=
    .ok (.ok hpop rfl) rfl
  obtain ⟨hcontrol, hcode, _⟩ := reached_blocks Host.passesOn_bare hcall
  refine ⟨_, [], 0, ⟨Host.passesOn_bare, hcall⟩, rfl, rfl, hcontrol, ?_⟩
  exact hcode _ _ later (.stack List.mem_cons_self) (.self _) rfl

end ConsMachine
