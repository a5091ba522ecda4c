import ConsMachine.Proofs.Balanced
import ConsMachine.Proofs.Context

/-!
# The stack discipline

While a balanced program runs, the stack is divided into segments: the operands
of the running block on top, then a continuation, the operands of the block that
it resumes, and so on. Each continuation is balanced for the operands right
beneath it and the one value it waits for (`Awaits`). A state whose stack is
divided in this way, with sound values in it, is *disciplined*
(`State.Disciplined`).

A step keeps a state disciplined, or fails for a reason that has nothing to do
with the stack (`State.Disciplined.step`). So no run of a balanced program fails
for lack of an operand, of a continuation or of an instruction, and one that ends
leaves exactly one sound value (`run_of_balanced`). All of it holds for both
policies of saving.

The natives of a host are free to raise any error, those of the machine included.
A run may fail with such an error too, but then in the very step that calls the
native (`State.Raises`). What a host can do brings about no references but those that
registrations give out (`World.Reachable.exists_native_of_raises`).
-/

namespace ConsMachine

/-- The errors of a machine that lost track of its program or its stack: a form
    that is no instruction, an operand or a position that is not there, a result
    without a continuation, and misuse. -/
def Error.isBreach : Error → Bool
  | malformed .. | underflow .. | outOfEnvironment .. | misuse _ => true
  | type (.notContinuation _) => true
  | _ => false

/-- A call of a native of the host raises this error. Where no registration gave
    out the reference, nothing is called, and that is a misuse. -/
inductive Host.Raises (host : Host) (args : List Value) (next : Nat) : NativeRef → Error → Prop
  | registered {index : Nat} {name : String} {f : Native} {e : Error} :
      host.natives[index]? = some f → f args next = .error e →
      Raises host args next (.hosted index name) e
  | unregistered {index : Nat} {name : String} : host.natives[index]? = none →
      Raises host args next (.hosted index name)
        (.misuse (.ofNative ("native not registered: " ++ name)))

/-- A call comes down to one of a native of the host, for sound arguments, which
    raises this error. -/
def Host.RaisesIn (host : Host) (f : Value) (args : List Value) (next : Nat) (e : Error) : Prop :=
  ∃ r as, applied f args = (.native r, as) ∧ (∀ a ∈ as, Sound a) ∧ host.Raises as next r e

/-- The next step calls a native of the host, for sound arguments, which raises
    this error. -/
def State.Raises (host : Host) (s : State) (e : Error) : Prop :=
  ∃ r args, s.Calls (.native r) args ∧ (∀ a ∈ args, Sound a) ∧
    host.Raises args s.nextObject r e

/-! ### Errors of natives -/

theorem ParamType.isBreach_of_convert {t : ParamType} {v : Value} {e : Error}
    (h : t.convert v = .error e) : e.isBreach = false := by
  cases t <;> cases v <;> cases h <;> rfl

theorem Arguments.isBreach_of_take {ts : List ParamType} {vs : List Value}
    {hle : ts.length ≤ vs.length} {e : Error} (h : Arguments.take ts vs hle = .error e) :
    e.isBreach = false := by
  fun_induction Arguments.take ts vs hle with
  | case1 => cases h
  | case2 t ts v vs hle ih =>
    cases ha : t.convert v with
    | error e' =>
      rw [ha] at h
      cases h
      exact ParamType.isBreach_of_convert ha
    | ok a =>
      cases hr : Arguments.take ts vs (Nat.le_of_succ_le_succ hle) with
      | error e' =>
        rw [ha, hr] at h
        cases h
        exact ih hr
      | ok r =>
        rw [ha, hr] at h
        cases h

/-- A typed native fails for the number or the type of its arguments, or in its
    body. -/
theorem Native.isBreach_of_typed {ts : List ParamType} {body : Arguments ts → Alloc Value}
    {args : List Value} {next : Nat} {e : Error} (h : Native.typed ts body args next = .error e)
    (hbody : ∀ as next, body as next = .error e → e.isBreach = false) : e.isBreach = false := by
  unfold Native.typed at h
  split at h
  · rename_i hl
    cases ht : Arguments.take ts args (Nat.le_of_eq hl.symm) with
    | error e' =>
      rw [ht] at h
      cases h
      exact Arguments.isBreach_of_take ht
    | ok r =>
      rw [ht] at h
      exact hbody r.1 next h
  · cases h
    rfl

theorem Value.isBreach_of_car {v : Value} {e : Error} (h : v.car = .error e) :
    e.isBreach = false := by
  cases v <;> cases h <;> rfl

theorem Value.isBreach_of_cdr {v : Value} {e : Error} (h : v.cdr = .error e) :
    e.isBreach = false := by
  cases v <;> cases h <;> rfl

/-- No built-in native fails with a breach of the discipline. -/
theorem Builtin.isBreach_of_run {op : Builtin} {args : List Value} {next : Nat} {e : Error}
    (h : op.run args next = .error e) : e.isBreach = false := by
  cases op <;> rw [run] at h <;> refine Native.isBreach_of_typed h (fun as next he => ?_)
  case cons | isSymbol | isPair | isAtom | isSame => cases he
  case car =>
    obtain ⟨w, ⟨⟩⟩ := as
    cases hw : w.car with
    | ok a => simp only [hw] at he; cases he
    | error e' => simp only [hw] at he; cases he; exact Value.isBreach_of_car hw
  case cdr =>
    obtain ⟨w, ⟨⟩⟩ := as
    cases hw : w.cdr with
    | ok d => simp only [hw] at he; cases he
    | error e' => simp only [hw] at he; cases he; exact Value.isBreach_of_cdr hw
  case add =>
    obtain ⟨a, b, ⟨⟩⟩ := as
    cases hn : Number.add? a b <;> simp only [hn] at he <;> cases he
    rfl
  case sub =>
    obtain ⟨a, b, ⟨⟩⟩ := as
    cases hn : Number.sub? a b <;> simp only [hn] at he <;> cases he
    rfl

/-- A native that fails with a breach is one of the host. -/
theorem Host.raises_of_behaviour {host : Host} {r : NativeRef} {args : List Value} {next : Nat}
    {e : Error} (h : host.behaviour r args next = .error e) (he : e.isBreach = true) :
    host.Raises args next r e := by
  cases r with
  | builtin op =>
    rw [Builtin.isBreach_of_run h] at he
    cases he
  | hosted index name =>
    cases hf : host.natives[index]? with
    | some f =>
      simp only [behaviour, hf] at h
      exact .registered hf h
    | none =>
      simp only [behaviour, hf] at h
      cases h
      exact .unregistered hf

theorem isBreach_of_bodyEnv {arity next : Nat} {hasRest : Bool} {captured args : List Value}
    {e : Error} (h : bodyEnv arity hasRest captured args next = .error e) :
    e.isBreach = false := by
  unfold bodyEnv at h
  split at h
  · cases h; rfl
  split at h
  · cases h
  split at h
  · cases h; rfl
  · cases h

theorem Globals.isBreach_of_get {g : Globals} {name : String} {e : Error}
    (h : g.get name = .error e) : e.isBreach = false := by
  unfold get at h
  split at h <;> cases h
  rfl

/-! ### Disciplined states -/

/-- A stack on which one value is awaited: it is empty, or a continuation is on
    top that needs just this value and the operands beneath. -/
inductive Awaits : List Value → Prop
  | bottom : Awaits []
  | continuation {id : Nat} {control : Value} {env operands below : List Value} :
      Balanced env.length (operands.length + 1) control → (∀ v ∈ operands, Sound v) →
      (∀ v ∈ env, Sound v) → Awaits below →
      Awaits (.continuation id control env :: (operands ++ below))

/-- The stack is divided into segments, and what remains of the running block is
    balanced for the operands in its segment and `awaited` values more. -/
structure State.Disciplined (awaited : Nat) (s : State) : Prop where
  globals : s.globals.Sound
  env : ∀ v ∈ s.env, Sound v
  stack : ∃ operands below, s.stack = operands ++ below ∧ (∀ v ∈ operands, Sound v) ∧
    Balanced s.env.length (operands.length + awaited) s.control ∧ Awaits below

/-- A step that leads to a disciplined state, or fails, and then with no breach of
    the discipline but one that has an excuse. -/
def StaysDisciplined (excused : Error → Prop) : Except Stop State → Prop
  | .ok t => t.Disciplined 0
  | .error stop => stop.error.isBreach = true → excused stop.error

theorem StaysDisciplined.of_not_isBreach {excused : Error → Prop} {stop : Stop}
    (h : stop.error.isBreach = false) : StaysDisciplined excused (.error stop) := by
  intro he
  rw [h] at he
  cases he

theorem StaysDisciplined.imp {excused excused' : Error → Prop} {r : Except Stop State}
    (h : StaysDisciplined excused r) (himp : ∀ e, excused e → excused' e) :
    StaysDisciplined excused' r := by
  cases r with
  | ok t => exact h
  | error stop => exact fun he => himp stop.error (h he)

/-- The operands of a call, latest first: the arguments and the function. -/
theorem exists_eq_append_call {count : Nat} {operands : List Value}
    (h : count + 1 ≤ operands.length) :
    ∃ (args : List Value) (f : Value) (rest : List Value),
      args.length = count ∧ operands = args.reverse ++ f :: rest := by
  refine ⟨(operands.take count).reverse, operands[count], operands.drop (count + 1), ?_, ?_⟩
  · rw [List.length_reverse, List.length_take]
    omega
  · rw [List.reverse_reverse, ← List.drop_eq_getElem_cons, List.take_append_drop]

/-- A call leaves one operand in place of its own. -/
theorem heightAfter_call (args rest : List Value) (f : Value) :
    (Instruction.call args.length).heightAfter (args.reverse ++ f :: rest).length =
      rest.length + 1 := by
  simp only [Instruction.heightAfter, List.length_append, List.length_reverse, List.length_cons]
  omega

variable {p : Saving} {host : Host} {n : Nat} {s t : State}

namespace State.Disciplined

theorem push (hs : s.Disciplined 1) {v : Value} (hv : Sound v) : (s.push v).Disciplined 0 := by
  obtain ⟨operands, below, hstack, hops, hb, hbelow⟩ := hs.stack
  refine ⟨hs.globals, hs.env, v :: operands, below, ?_, ?_, hb, hbelow⟩
  · simp [State.push, hstack]
  · exact List.forall_mem_cons.2 ⟨hv, hops⟩

/-- When a block or body is entered, its value is awaited: by what was saved, or,
    if nothing was, by whatever awaited a value before. -/
theorem awaits_save (hs : s.Disciplined 1) : Awaits (s.save p).stack := by
  obtain ⟨operands, below, hstack, hops, hb, hbelow⟩ := hs.stack
  unfold save
  split
  · -- Nothing is left of the running block, so it has no operands either.
    rename_i h
    rw [Value.isNil_iff.1 h.2, Balanced.nil_iff] at hb
    rw [hstack, List.eq_nil_of_length_eq_zero (Nat.succ.inj hb)]
    exact hbelow
  · rw [hstack]
    exact .continuation hb hops hs.env hbelow

/-- The discipline has nothing to do with the identities of objects. -/
theorem with_nextObject (hs : s.Disciplined n) (next : Nat) :
    State.Disciplined n { s with nextObject := next } :=
  ⟨hs.globals, hs.env, hs.stack⟩

/-- A block starts without operands of its own. -/
theorem of_awaits {awaiting : List Value} (hg : s.globals.Sound) (he : ∀ v ∈ s.env, Sound v)
    (hstack : s.stack = awaiting) (ha : Awaits awaiting) (hb : Balanced s.env.length 0 s.control) :
    s.Disciplined 0 :=
  ⟨hg, he, [], awaiting, hstack, by simp, hb, ha⟩

theorem call (hh : host.KeepsSound) (hs : s.Disciplined 1) {f : Value} {args : List Value}
    (hf : Sound f) (ha : ∀ a ∈ args, Sound a) :
    StaysDisciplined (host.RaisesIn f args s.nextObject) (State.call p host s f args) := by
  fun_induction State.call p host s f args with
  | case1 => exact .of_not_isBreach rfl
  | case2 f args ih =>
    rw [List.forall_mem_cons] at ha
    exact ih ha.1 ha.2
  | case3 id arity hasRest code captured args env next hb =>
    obtain ⟨hcode, hcap⟩ := Sound.closure_iff.1 hf
    refine of_awaits ?_ (Sound.bodyEnv hb hcap ha) rfl hs.awaits_save ?_
    · rw [show (s.save p).globals = s.globals by unfold save; split <;> rfl]
      exact hs.globals
    · rw [length_of_bodyEnv hb]
      exact hcode
  | case4 id arity hasRest code captured args e hb =>
    exact .of_not_isBreach (isBreach_of_bodyEnv hb)
  | case5 f args v next hv =>
    exact (hs.push (hh.behaviour f args s.nextObject v next ha hv)).with_nextObject next
  | case6 r args e he =>
    exact fun hbreach => ⟨r, args, applied_native r args, ha, Host.raises_of_behaviour he hbreach⟩
  | case7 f args => exact .of_not_isBreach rfl

/-- A balanced block has the operands of its next instruction, and the
    instruction keeps the discipline. -/
theorem execute (hh : host.KeepsSound) {i : Instruction} {operands below : List Value}
    (hg : s.globals.Sound) (he : ∀ v ∈ s.env, Sound v) (hstack : s.stack = operands ++ below)
    (hops : ∀ v ∈ operands, Sound v) (hi : i.needed ≤ operands.length)
    (hf : Fits s.env.length i)
    (hb : Balanced s.env.length (i.heightAfter operands.length) s.control) (ha : Awaits below) :
    StaysDisciplined (fun e => ∃ count args f rest, i = .call count ∧
      takeCall count [] s.stack = some (args, f, rest) ∧ host.RaisesIn f args s.nextObject e)
      (State.execute p host s i) := by
  -- What the instructions that only push a value need.
  have hs (hheight : i.heightAfter operands.length = operands.length + 1) : s.Disciplined 1 :=
    ⟨hg, he, operands, below, hstack, hops, hheight ▸ hb, ha⟩
  cases hf with
  | push hv => exact (hs rfl).push hv
  | pop =>
    obtain ⟨v, rest, rfl⟩ := List.exists_cons_of_length_pos hi
    rw [List.cons_append] at hstack
    simp only [State.execute, hstack]
    exact ⟨hg, he, rest, below, rfl, (List.forall_mem_cons.1 hops).2, hb, ha⟩
  | access hindex =>
    rename_i index
    simp only [State.execute, List.getElem?_eq_getElem hindex]
    exact (hs rfl).push (he _ (List.getElem_mem hindex))
  | closure hcode => exact ((hs rfl).push (.closure hcode he)).with_nextObject _
  | @call _ count =>
    obtain ⟨args, f, rest, rfl, rfl⟩ := exists_eq_append_call hi
    rw [List.append_assoc, List.cons_append] at hstack
    simp only [State.execute, hstack, takeCall_length, List.append_nil]
    have hops := List.forall_mem_append.1 hops
    have hrest := List.forall_mem_cons.1 hops.2
    rw [heightAfter_call] at hb
    -- With the call's operands off the stack, its value is awaited.
    have hcall : Disciplined 1 { s with stack := rest ++ below } :=
      ⟨hg, he, rest, below, rfl, hrest.2, hb, ha⟩
    have hstays := hcall.call (p := p) hh hrest.1 fun a ha => hops.1 a (List.mem_reverse.2 ha)
    refine hstays.imp fun e he => ⟨_, args, f, rest ++ below, rfl, ?_, he⟩
    rw [takeCall_length, List.append_nil]
  | branch hthen helse =>
    obtain ⟨test, rest, rfl⟩ := List.exists_cons_of_length_pos hi
    rw [List.cons_append] at hstack
    simp only [State.execute, hstack]
    have hawaits : Awaits (State.save p { s with stack := rest ++ below }).stack :=
      awaits_save ⟨hg, he, rest, below, rfl, (List.forall_mem_cons.1 hops).2, hb, ha⟩
    refine of_awaits (by simpa using hg) (by simpa using he) rfl hawaits ?_
    rw [save_env]
    exact hthen.ite helse
  | @getGlobal _ name =>
    cases hv : s.globals.get name with
    | ok v =>
      simp only [State.execute, hv]
      exact (hs rfl).push (hg.get hv)
    | error e =>
      simp only [State.execute, hv]
      exact .of_not_isBreach (Globals.isBreach_of_get hv)
  | setGlobal =>
    obtain ⟨v, rest, rfl⟩ := List.exists_cons_of_length_pos hi
    rw [List.cons_append] at hstack
    simp only [State.execute, hstack]
    exact ⟨hg.bind _ (hops v List.mem_cons_self), he, v :: rest, below, rfl, hops, hb, ha⟩

/-- A result is on top of a stack on which it was awaited. -/
theorem exists_eq_cons (hs : s.Disciplined 0) (hc : s.control = .nil) :
    ∃ v below, s.stack = v :: below ∧ Sound v ∧ Awaits below := by
  obtain ⟨operands, below, hstack, hops, hb, ha⟩ := hs.stack
  rw [hc, Balanced.nil_iff] at hb
  obtain ⟨v, rfl⟩ := List.length_eq_one_iff.1 hb
  exact ⟨v, below, hstack, hops v List.mem_cons_self, ha⟩

/-- A run that ends in a disciplined state leaves one value, and it is sound. -/
theorem exists_result (hs : s.Disciplined 0) (hd : s.isDone = true) :
    ∃ v, Sound v ∧ s.stack = [v] ∧ s.result = .ok v := by
  obtain ⟨hc, hl⟩ := isDone_iff.1 hd
  obtain ⟨v, below, hstack, hv, _⟩ := hs.exists_eq_cons hc
  have : below = [] := List.eq_nil_of_length_eq_zero (by
    simp only [hstack, List.length_cons] at hl
    omega)
  subst this
  exact ⟨v, hv, hstack, result_eq_ok_iff.2 ⟨hc, hstack⟩⟩

/-- A step keeps a state disciplined, or fails, and with a breach of the discipline
    only if it calls a native of the host that raises it. -/
theorem step (hh : host.KeepsSound) (hs : s.Disciplined 0) (hd : s.isDone = false) :
    StaysDisciplined (s.Raises host) (s.stepWith p host) := by
  obtain ⟨operands, below, hstack, hops, hb, ha⟩ := hs.stack
  obtain hc | ⟨id, form, rest, hc⟩ := hb.eq_nil_or_pair
  · -- The awaiting stack is not empty, or the state would be done.
    obtain ⟨v, awaiting, hstack, hv, ha⟩ := hs.exists_eq_cons hc
    cases ha with
    | bottom => simp [isDone, hc, hstack] at hd
    | continuation hb hops he ha =>
      rw [stepWith_resume hc hstack]
      exact ⟨hs.globals, he, _ :: _, _, rfl, List.forall_mem_cons.2 ⟨hv, hops⟩, hb, ha⟩
  · rw [hc, Balanced.pair_iff] at hb
    obtain ⟨i, hi, hn, hf, hb⟩ := hb
    rw [stepWith_of_decode hc hi]
    have hstays := execute (p := p) (s := { s with control := rest }) hh hs.globals hs.env hstack
      hops hn hf hb ha
    refine hstays.imp fun e he => ?_
    obtain ⟨count, args, f, below, rfl, htake, r, as, happlied, has, hraises⟩ := he
    exact ⟨r, as, ⟨count, args, f, below, ⟨id, form, rest, hc, hi⟩, htake, happlied⟩, has, hraises⟩

theorem steps (hh : host.KeepsSound) (hs : s.Disciplined 0) (h : Steps p host n s t) :
    t.Disciplined 0 := by
  induction h with
  | refl => exact hs
  | head hst htu ih =>
    have hstep := hs.step (p := p) hh (Steps.single hst).isDone_eq_false
    rw [hst] at hstep
    exact ih hstep

end State.Disciplined

/-- A balanced block starts in a disciplined state. -/
theorem Balanced.disciplined {env : List Value} {code : Value} {g : Globals}
    (hb : Balanced env.length 0 code) (he : ∀ v ∈ env, Sound v) (hg : g.Sound)
    (nextObject nextContinuation : Nat) :
    State.Disciplined 0 ⟨code, [], env, g, nextObject, nextContinuation⟩ :=
  .of_awaits hg he rfl .bottom hb

/-- A balanced program never goes wrong. After any number of steps from the empty
    stack its run is in a disciplined state, or has ended with exactly one value on
    the stack, a sound one, which is its result; and if it fails, then not for
    want of an instruction, an operand, a position in the environment or a
    continuation, nor for misuse of the machine, unless the step that failed is a
    call of a native of the host, for sound arguments, and this native raised just
    this error itself. -/
theorem run_of_balanced {env : List Value} {code : Value} {g : Globals} (hh : host.KeepsSound)
    (hb : Balanced env.length 0 code) (he : ∀ v ∈ env, Sound v) (hg : g.Sound)
    (nextObject nextContinuation n : Nat) :
    let start : State := ⟨code, [], env, g, nextObject, nextContinuation⟩
    (∀ stop, start.run host n = .failed stop → stop.error.isBreach = true →
        ∃ k < n, ∃ t, Steps .unlessDone host k start t ∧ t.step host = .error stop ∧
          t.Raises host stop.error) ∧
      (∀ t, start.run host n = .unfinished t → t.Disciplined 0) ∧
      ∀ t, start.run host n = .finished t →
        t.globals.Sound ∧ ∃ v, Sound v ∧ t.stack = [v] ∧ t.result = .ok v := by
  have hstart := hb.disciplined he hg nextObject nextContinuation
  refine ⟨fun stop hrun hbreach => ?_, fun t hrun => ?_, fun t hrun => ?_⟩
  · obtain ⟨k, hk, t, hst, hd, ht⟩ := State.run_eq_failed_iff.1 hrun
    have hstep := (hstart.steps hh hst).step (p := .unlessDone) hh hd
    rw [show t.stepWith .unlessDone host = .error stop from ht] at hstep
    exact ⟨k, hk, t, hst, ht, hstep hbreach⟩
  · exact hstart.steps hh (State.run_eq_unfinished_iff.1 hrun).1
  · obtain ⟨k, _, hst, hd⟩ := State.run_eq_finished_iff.1 hrun
    have ht := hstart.steps hh hst
    exact ⟨ht.globals, ht.exists_result hd⟩

/-- A run that calls, branches and binds a global. -/
theorem run_eq_of_sampleCall : State.run .bare 8 ⟨sampleCall, [], [], .initial, 50, 0⟩ =
    .finished ⟨.nil, [.number 1], [.bool true], Globals.initial.bind "x" (.number 1), 51, 1⟩ := by
  refine State.run_eq_finished_iff.2 ⟨8, Nat.le_refl 8, ?_, rfl⟩
  exact .head rfl (.head rfl (.head rfl (.head rfl (.head rfl (.head rfl (.head rfl
    (.single rfl)))))))

/-- The program of this run is balanced, and it returns one sound value. -/
theorem run_sampleCall :
    (Host.bare.KeepsSound ∧ Balanced 0 0 sampleCall ∧ Globals.initial.Sound) ∧
      ∃ t v, State.run .bare 8 ⟨sampleCall, [], [], .initial, 50, 0⟩ = .finished t ∧
        Sound v ∧ t.stack = [v] ∧ t.result = .ok v := by
  refine ⟨⟨Host.keepsSound_bare, sampleCall_balanced, Globals.Sound.initial⟩, ?_⟩
  have hb : Balanced ([] : List Value).length 0 sampleCall := sampleCall_balanced
  have henv : ∀ v ∈ ([] : List Value), Sound v := by simp
  obtain ⟨_, v, hv, hstack, hresult⟩ := (run_of_balanced Host.keepsSound_bare hb henv
    Globals.Sound.initial 50 0 8).2.2 _ run_eq_of_sampleCall
  exact ⟨_, v, run_eq_of_sampleCall, hv, hstack, hresult⟩

open Instruction in
/-- A native of the host may raise an error of the machine; the balanced program that calls it
    then fails with it. -/
example :
    let host : Host := ⟨#[fun _ _ => .error (.underflow 1 0)]⟩
    let env : List Value := [.native (.hosted 0 "f")]
    State.run host 9 ⟨(encodeAll [access 0, call 0] 0).1, [], env, .empty, 50, 0⟩ =
      .failed ⟨.underflow 1 0, ⟨.nil, [], env, .empty, 50, 0⟩⟩ := rfl

end ConsMachine
