import ConsMachine.Proofs.Discipline
import ConsMachine.Proofs.Evaluator

/-!
# The machine agrees with the evaluator

On balanced code and sound values, whatever the evaluator comes out with, the
machine does: it fails with the same error, or it comes to the end of what was
evaluated, with the same operands (`evalBlock_agrees`). The operands of the
evaluator are the topmost segment of the machine's stack, and whatever is beneath
them stays. That a branch or a call comes back to where it was made is the work
of one lemma (`Follows.of_save`).

The proof is by induction on the evaluation, for both policies of saving. Where
nothing was saved, the machine comes back to an empty control in another
environment, which does not matter: nothing is left to run in it.
-/

namespace ConsMachine

/-- The part of a state that programs change besides their operands. -/
def State.store (s : State) : Store :=
  ⟨s.globals, s.nextObject⟩

variable {p : Saving} {host : Host} {n : Nat} {s t : State} {r : Except Stop State}
  {control control' : Value} {env env' below below' : List Value} {σ : Store}

/-! ### What the machine does after a step -/

/-- From the result of a step on, the machine fails with an error, in a state with
    the store `σ`. -/
inductive Fails (p : Saving) (host : Host) (e : Error) (σ : Store) : Except Stop State → Prop
  | now {left : State} : left.store = σ → Fails p host e σ (.error ⟨e, left⟩)
  | later {s : State} :
      s.isDone = false → Fails p host e σ (s.stepWith p host) → Fails p host e σ (.ok s)

/-- From the result `r` of a step on, the machine does what an evaluation came out
    with: it fails with the error, or it gets to `control`, in `env` unless this
    is the end of the block, with the operands on top of `below`. -/
def Follows (p : Saving) (host : Host) (control : Value) (env below : List Value)
    (r : Except Stop State) : Except Error (List Value) × Store → Prop
  | (.error e, σ) => Fails p host e σ r
  | (.ok operands, σ) => ∃ n s t, r = .ok s ∧ Steps p host n s t ∧ t.control = control ∧
      t.stack = operands ++ below ∧ t.store = σ ∧ (control = .nil ∨ t.env = env)

namespace Follows

variable {a : Except Error (List Value) × Store}

theorem later (hd : s.isDone = false)
    (h : Follows p host control env below (s.stepWith p host) a) :
    Follows p host control env below (.ok s) a := by
  obtain ⟨e | operands, σ⟩ := a
  · exact .later hd h
  · obtain ⟨n, u, t, hu, hut, ht⟩ := h
    exact ⟨n + 1, s, t, rfl, .head hu hut, ht⟩

theorem of_steps (h : Steps p host n s t) (ht : Follows p host control env below (.ok t) a) :
    Follows p host control env below (.ok s) a := by
  induction h with
  | refl => exact ht
  | head hst htu ih =>
    refine later (Steps.single hst).isDone_eq_false ?_
    rw [hst]
    exact ih ht

/-- One evaluation after another. -/
theorem bind {operands : List Value} (h : Follows p host control env below r (.ok operands, σ))
    (hnext : ∀ t, t.control = control → t.stack = operands ++ below → t.store = σ →
      (control = .nil ∨ t.env = env) → Follows p host control' env' below' (.ok t) a) :
    Follows p host control' env' below' r a := by
  obtain ⟨n, s, t, rfl, hst, hc, hstack, hstore, henv⟩ := h
  exact of_steps hst (hnext t hc hstack hstore henv)

/-- A state in which an instruction was executed with success. -/
theorem of_ok {operands : List Value} (hc : t.control = control)
    (hstack : t.stack = operands ++ below) (hstore : t.store = σ) (henv : t.env = env) :
    Follows p host control env below (.ok t) (.ok operands, σ) :=
  ⟨0, t, t, rfl, .refl t, hc, hstack, hstore, .inr henv⟩

/-- A branch or body comes back to the state it was entered from: a value on top
    of what was saved goes on top of the operands of that state. -/
theorem of_save {v : Except Error Value}
    (h : Follows p host .nil env (s.save p).stack r (v.map fun v => [v], σ)) :
    Follows p host s.control s.env s.stack r (v.map fun v => [v], σ) := by
  cases v with
  | error e => exact h
  | ok v =>
    refine h.bind fun t hc hstack hstore _ => ?_
    by_cases hp : p = .unlessDone ∧ s.control.isNil
    · -- Nothing was saved, since there was nothing to come back to.
      rw [State.save, if_pos hp] at hstack
      exact ⟨0, t, t, rfl, .refl t, hc.trans (Value.isNil_iff.1 hp.2).symm, hstack, hstore,
        .inl (Value.isNil_iff.1 hp.2)⟩
    · rw [State.save, if_neg hp] at hstack
      exact ⟨1, t, _, rfl, .single (State.stepWith_resume hc hstack), rfl, rfl, hstore, .inr rfl⟩

/-- The value of a branch or call is one more operand. -/
theorem cons {v : Except Error Value} {rest : List Value}
    (h : Follows p host control env (rest ++ below) r (v.map fun v => [v], σ)) :
    Follows p host control env below r (v.map (· :: rest), σ) := by
  cases v with
  | error e => exact h
  | ok v => exact h

end Follows

/-! ### From the evaluator to the machine -/

/-- The operands that an evaluation comes out with are sound, and so are the
    globals it leaves. -/
def SoundOutcome : Except Error (List Value) × Store → Prop
  | (.error _, σ) => σ.globals.Sound
  | (.ok operands, σ) => (∀ v ∈ operands, Sound v) ∧ σ.globals.Sound

theorem SoundOutcome.of_value {v : Value} (hv : Sound v) (hg : σ.globals.Sound) :
    SoundOutcome ((Except.ok v).map fun v => [v], σ) :=
  ⟨List.forall_mem_singleton.2 hv, hg⟩

/-- The machine goes through a block as it is evaluated. -/
structure AgreesOnBlock (p : Saving) (host : Host) (env operands : List Value) (code : Value)
    (σ : Store) (v : Except Error Value) (σ' : Store) : Prop where
  sound : SoundOutcome (v.map fun v => [v], σ')
  follows (s : State) (below : List Value) : s.control = code → s.stack = operands ++ below →
    s.store = σ → (code = .nil ∨ s.env = env) →
    Follows p host .nil env below (.ok s) (v.map fun v => [v], σ')

/-- The machine executes an instruction as it is evaluated. -/
structure AgreesOnInstruction (p : Saving) (host : Host) (env operands : List Value)
    (i : Instruction) (σ : Store) (a : Except Error (List Value)) (σ' : Store) : Prop where
  sound : SoundOutcome (a, σ')
  length (vs : List Value) : a = .ok vs → vs.length = i.heightAfter operands.length
  follows (s : State) (below : List Value) : s.stack = operands ++ below → s.store = σ →
    s.env = env → Follows p host s.control env below (s.execute p host i) (a, σ')

/-- The machine makes a call as it is evaluated. -/
structure AgreesOnCall (p : Saving) (host : Host) (f : Value) (args : List Value)
    (σ : Store) (v : Except Error Value) (σ' : Store) : Prop where
  sound : SoundOutcome (v.map fun v => [v], σ')
  follows (s : State) : s.store = σ →
    Follows p host s.control s.env s.stack (s.call p host f args) (v.map fun v => [v], σ')

namespace AgreesOnInstruction

variable {operands rest : List Value} {i : Instruction} {v : Value}

/-- An instruction that takes its operands, all but `rest`, and pushes a value if
    it does not fail. -/
theorem of_value {v : Except Error Value} {σ' : Store}
    (hheight : i.heightAfter operands.length = rest.length + 1)
    (hsound : SoundOutcome (v.map fun v => [v], σ')) (hrest : ∀ w ∈ rest, Sound w)
    (hfollows : ∀ (s : State) (below : List Value), s.stack = operands ++ below → s.store = σ →
      s.env = env → Follows p host s.control env (rest ++ below) (s.execute p host i)
        (v.map fun v => [v], σ')) :
    AgreesOnInstruction p host env operands i σ (v.map (· :: rest)) σ' := by
  refine ⟨?_, ?_, fun s below hstack hstore henv => (hfollows s below hstack hstore henv).cons⟩
  · cases v with
    | error e => exact hsound
    | ok v => exact ⟨List.forall_mem_cons.2 ⟨hsound.1 v List.mem_cons_self, hrest⟩, hsound.2⟩
  · rw [hheight]
    rintro vs hvs
    cases v <;> cases hvs
    rfl

/-- An instruction that pushes a value, without a look at the operands. -/
theorem of_push {σ' : Store} (hheight : i.heightAfter operands.length = operands.length + 1)
    (hv : Sound v) (hops : ∀ w ∈ operands, Sound w) (hg : σ'.globals.Sound)
    (hexecute : ∀ s : State, s.store = σ → s.env = env →
      s.execute p host i = .ok { s.push v with nextObject := σ'.nextObject } ∧
        s.globals = σ'.globals) :
    AgreesOnInstruction p host env operands i σ (.ok (v :: operands)) σ' := by
  refine of_value (v := .ok v) hheight (.of_value hv hg) hops fun s below hstack hstore henv => ?_
  obtain ⟨hs, hglobals⟩ := hexecute s hstore henv
  rw [hs]
  exact .of_ok rfl (by rw [State.push, hstack]; rfl) (by rw [State.store, State.push, hglobals])
    henv

theorem push (hv : Sound v) (hops : ∀ w ∈ operands, Sound w) (hg : σ.globals.Sound) :
    AgreesOnInstruction p host env operands (.push v) σ (.ok (v :: operands)) σ := by
  refine of_push rfl hv hops hg ?_
  rintro s rfl rfl
  exact ⟨rfl, rfl⟩

theorem pop (hrest : ∀ w ∈ rest, Sound w) (hg : σ.globals.Sound) :
    AgreesOnInstruction p host env (v :: rest) .pop σ (.ok rest) σ := by
  refine ⟨⟨hrest, hg⟩, by rintro _ ⟨⟩; rfl, fun s below hstack hstore henv => ?_⟩
  rw [List.cons_append] at hstack
  simp only [State.execute, hstack]
  exact .of_ok rfl rfl hstore henv

theorem access {index : Nat} (hv : env[index]? = some v) (he : ∀ w ∈ env, Sound w)
    (hops : ∀ w ∈ operands, Sound w) (hg : σ.globals.Sound) :
    AgreesOnInstruction p host env operands (.access index) σ (.ok (v :: operands)) σ := by
  refine of_push rfl (he v (List.mem_of_getElem? hv)) hops hg ?_
  rintro s rfl rfl
  simp only [State.execute, hv]
  exact ⟨rfl, rfl⟩

theorem closure {arity : Nat} {hasRest : Bool} {code : Value}
    (hcode : Balanced (paramCount arity hasRest + env.length) 0 code) (he : ∀ w ∈ env, Sound w)
    (hops : ∀ w ∈ operands, Sound w) (hg : σ.globals.Sound) :
    AgreesOnInstruction p host env operands (.closure arity hasRest code) σ
      (.ok (.closure σ.nextObject arity hasRest code env :: operands))
      { σ with nextObject := σ.nextObject + 1 } := by
  refine of_push rfl (.closure hcode he) hops hg ?_
  rintro s rfl rfl
  exact ⟨rfl, rfl⟩

theorem getGlobal {name : String} (hops : ∀ w ∈ operands, Sound w) (hg : σ.globals.Sound) :
    AgreesOnInstruction p host env operands (.getGlobal name) σ
      ((σ.globals.get name).map (· :: operands)) σ := by
  cases hv : σ.globals.get name with
  | ok v =>
    refine of_push rfl (hg.get hv) hops hg ?_
    rintro s rfl rfl
    replace hv : s.globals.get name = .ok v := hv
    simp only [State.execute, hv]
    exact ⟨rfl, rfl⟩
  | error e =>
    refine of_value (v := .error e) rfl hg hops ?_
    rintro s below hstack rfl rfl
    replace hv : s.globals.get name = .error e := hv
    simp only [State.execute, hv]
    exact .now rfl

theorem setGlobal (name : String) (hv : Sound v) (hrest : ∀ w ∈ rest, Sound w)
    (hg : σ.globals.Sound) :
    AgreesOnInstruction p host env (v :: rest) (.setGlobal name) σ (.ok (v :: rest))
      { σ with globals := σ.globals.bind name v } := by
  refine of_value (v := .ok v) rfl (.of_value hv (hg.bind name hv)) hrest ?_
  rintro s below hstack rfl rfl
  rw [List.cons_append] at hstack
  simp only [State.execute, hstack]
  exact .of_ok rfl rfl rfl rfl

/-- The machine executes the first instruction of a block. -/
theorem first {a : Except Error (List Value)} {σ' : Store} {id : Nat} {form rest : Value}
    (h : AgreesOnInstruction p host env operands i σ a σ') (hi : Instruction.decode form = .ok i)
    (hc : s.control = .pair id form rest) (hstack : s.stack = operands ++ below)
    (hstore : s.store = σ) (henv : s.env = env) :
    Follows p host rest env below (.ok s) (a, σ') := by
  refine .later (by simp [State.isDone, hc]) ?_
  rw [State.stepWith_of_decode hc hi]
  exact h.follows { s with control := rest } below hstack hstore henv

end AgreesOnInstruction

/-- The machine enters a branch and comes back. -/
theorem AgreesOnBlock.branch {test thenCode elseCode : Value} {rest : List Value}
    {v : Except Error Value} {σ' : Store}
    (h : AgreesOnBlock p host env [] (if test.isTrue then thenCode else elseCode) σ v σ')
    (hrest : ∀ w ∈ rest, Sound w) :
    AgreesOnInstruction p host env (test :: rest) (.branch thenCode elseCode) σ
      (v.map (· :: rest)) σ' := by
  refine .of_value rfl h.sound hrest ?_
  rintro s below hstack rfl rfl
  rw [List.cons_append] at hstack
  simp only [State.execute, hstack]
  exact Follows.of_save (s := { s with stack := rest ++ below })
    (h.follows _ _ rfl rfl (by simp [State.store]) (.inr (by simp)))

/-- The machine makes a call with the arguments on top of the function. -/
theorem AgreesOnCall.call {f : Value} {args rest : List Value} {v : Except Error Value}
    {σ' : Store} (h : AgreesOnCall p host f args σ v σ') (hrest : ∀ w ∈ rest, Sound w) :
    AgreesOnInstruction p host env (args.reverse ++ f :: rest) (.call args.length) σ
      (v.map (· :: rest)) σ' := by
  refine .of_value (heightAfter_call args rest f) h.sound hrest ?_
  rintro s below hstack hstore rfl
  rw [List.append_assoc, List.cons_append] at hstack
  simp only [State.execute, hstack, takeCall_length, List.append_nil]
  exact h.follows { s with stack := rest ++ below } hstore

/-- The machine enters the body of a closure and comes back. -/
theorem AgreesOnBlock.body {id arity next : Nat} {hasRest : Bool} {code : Value}
    {captured args : List Value} {v : Except Error Value} {σ' : Store}
    (hb : bodyEnv arity hasRest captured args σ.nextObject = .ok (env, next))
    (h : AgreesOnBlock p host env [] code { σ with nextObject := next } v σ') :
    AgreesOnCall p host (.closure id arity hasRest code captured) args σ v σ' := by
  refine ⟨h.sound, ?_⟩
  rintro s rfl
  replace hb : bodyEnv arity hasRest captured args s.nextObject = .ok (env, next) := hb
  simp only [State.call, hb]
  exact .of_save (h.follows _ _ rfl rfl (by simp [State.store]) (.inr rfl))

namespace AgreesOnCall

/-- A call that fails at once. -/
theorem of_error {f : Value} {args : List Value} {e : Error} (hg : σ.globals.Sound)
    (h : ∀ s : State, s.store = σ → s.call p host f args = .error ⟨e, s⟩) :
    AgreesOnCall p host f args σ (.error e) σ :=
  ⟨hg, fun s hstore => by rw [h s hstore]; exact .now hstore⟩

/-- A native returns a value at once. -/
theorem native (hh : host.KeepsSound) {f : NativeRef} {args : List Value} {v : Value} {next : Nat}
    (hv : host.behaviour f args σ.nextObject = .ok (v, next)) (ha : ∀ a ∈ args, Sound a)
    (hg : σ.globals.Sound) :
    AgreesOnCall p host (.native f) args σ (.ok v) { σ with nextObject := next } := by
  refine ⟨.of_value (hh.behaviour f args _ v next ha hv) hg, ?_⟩
  rintro s rfl
  replace hv : host.behaviour f args s.nextObject = .ok (v, next) := hv
  simp only [State.call, hv]
  exact .of_ok rfl rfl rfl rfl

end AgreesOnCall

/-! ### Evaluations -/

/-- The machine goes through all branches and bodies as they are evaluated. -/
def BlockEvaluator.Agrees (p : Saving) (host : Host) (block : BlockEvaluator) : Prop :=
  ∀ env code σ r, block env code σ = some r → Balanced env.length 0 code →
    (∀ v ∈ env, Sound v) → σ.globals.Sound → AgreesOnBlock p host env [] code σ r.1 r.2

variable {block : BlockEvaluator}

/-- Calls agree if the bodies they enter do. -/
theorem evalCall_agrees (hh : host.KeepsSound) (hblock : block.Agrees p host) {f : Value}
    {args : List Value} {r : Except Error Value × Store}
    (h : evalCall host block f args σ = some r) (hf : Sound f) (ha : ∀ v ∈ args, Sound v)
    (hg : σ.globals.Sound) : AgreesOnCall p host f args σ r.1 r.2 := by
  fun_induction evalCall host block f args σ with
  | case1 σ =>
    cases h
    exact .of_error hg fun s _ => rfl
  | case2 f args σ ih =>
    obtain ⟨hf, ha⟩ := List.forall_mem_cons.1 ha
    obtain ⟨hsound, hfollows⟩ := ih h hf ha hg
    exact ⟨hsound, hfollows⟩
  | case3 id arity hasRest code captured args σ env next hb =>
    obtain ⟨hcode, hcap⟩ := Sound.closure_iff.1 hf
    rw [← length_of_bodyEnv hb] at hcode
    exact (hblock env code _ r h hcode (.bodyEnv hb hcap ha) hg).body hb
  | case4 id arity hasRest code captured args σ e hb =>
    cases h
    refine .of_error hg ?_
    rintro s rfl
    replace hb : bodyEnv arity hasRest captured args s.nextObject = .error e := hb
    simp only [State.call, hb]
  | case5 f args σ v next hv =>
    cases h
    exact .native hh hv ha hg
  | case6 f args σ e hv =>
    cases h
    refine .of_error hg ?_
    rintro s rfl
    replace hv : host.behaviour f args s.nextObject = .error e := hv
    simp only [State.call, hv]
  | case7 f args σ =>
    cases h
    refine .of_error hg fun s _ => ?_
    rw [State.call]
    all_goals assumption

/-- Instructions agree if the branches and bodies they enter do. -/
theorem evalInstruction_agrees (hh : host.KeepsSound) (hblock : block.Agrees p host)
    {operands : List Value} {i : Instruction} {r : Except Error (List Value) × Store}
    (h : evalInstruction host block env operands i σ = some r) (hn : i.needed ≤ operands.length)
    (hf : Fits env.length i) (hops : ∀ v ∈ operands, Sound v) (he : ∀ v ∈ env, Sound v)
    (hg : σ.globals.Sound) : AgreesOnInstruction p host env operands i σ r.1 r.2 := by
  cases hf with
  | push hv =>
    cases h
    exact .push hv hops hg
  | pop =>
    obtain ⟨v, rest, rfl⟩ := List.exists_cons_of_length_pos hn
    cases h
    exact .pop (List.forall_mem_cons.1 hops).2 hg
  | access hindex =>
    have hv := List.getElem?_eq_getElem hindex
    simp only [evalInstruction, hv] at h
    cases h
    exact .access hv he hops hg
  | closure hcode =>
    cases h
    exact .closure hcode he hops hg
  | call =>
    obtain ⟨args, f, rest, rfl, rfl⟩ := exists_eq_append_call hn
    have hops := List.forall_mem_append.1 hops
    have hrest := List.forall_mem_cons.1 hops.2
    have hargs : ∀ a ∈ args, Sound a := fun a ha => hops.1 a (List.mem_reverse.2 ha)
    simp only [evalInstruction, List.drop_left' List.length_reverse,
      List.take_left' List.length_reverse, List.reverse_reverse] at h
    obtain ⟨a, hv, ⟨⟩⟩ := Option.bind_eq_some_iff.1 h
    exact (evalCall_agrees hh hblock hv hrest.1 hargs hg).call hrest.2
  | branch hthen helse =>
    obtain ⟨test, rest, rfl⟩ := List.exists_cons_of_length_pos hn
    obtain ⟨a, hv, ⟨⟩⟩ := Option.bind_eq_some_iff.1 h
    exact (hblock env _ σ a hv (hthen.ite helse) he hg).branch (List.forall_mem_cons.1 hops).2
  | getGlobal =>
    cases h
    exact .getGlobal hops hg
  | @setGlobal _ name =>
    obtain ⟨v, rest, rfl⟩ := List.exists_cons_of_length_pos hn
    cases h
    have hv := List.forall_mem_cons.1 hops
    exact .setGlobal name hv.1 hv.2 hg

/-- On balanced code and sound values, the machine does what the evaluator does:
    by induction on the depth of the evaluation. -/
theorem evalBlock_agrees (hh : host.KeepsSound) {operands : List Value} {code : Value}
    {r : Except Error Value × Store} (h : evalBlock host n env operands code σ = some r)
    (hb : Balanced env.length operands.length code) (hops : ∀ v ∈ operands, Sound v)
    (he : ∀ v ∈ env, Sound v) (hg : σ.globals.Sound) :
    AgreesOnBlock p host env operands code σ r.1 r.2 := by
  induction n generalizing env operands code σ r with
  | zero => cases h
  | succ n ih =>
    -- What an instruction enters is evaluated to a smaller depth, and so is the
    -- rest of the block.
    have hbody : (evalBody host n).Agrees p host := fun env code σ r h hb he hg =>
      ih h hb (by simp) he hg
    obtain rfl | ⟨id, form, rest, rfl⟩ := hb.eq_nil_or_pair
    · obtain ⟨w, rfl⟩ := List.length_eq_one_iff.1 (Balanced.nil_iff.1 hb)
      cases h
      exact ⟨⟨hops, hg⟩, fun s below hc hstack hstore _ =>
        ⟨0, s, s, rfl, .refl s, hc, hstack, hstore, .inl rfl⟩⟩
    · obtain ⟨i, hi, hn, hf, hrest⟩ := Balanced.pair_iff.1 hb
      obtain ⟨operands', σ₁, hvs, h⟩ | ⟨e, σ₁, hvs, rfl⟩ := (evalBlock_pair_iff hi).1 h
      · have hfirst := evalInstruction_agrees hh hbody hvs hn hf hops he hg
        obtain ⟨hops', hg'⟩ := hfirst.sound
        rw [← hfirst.length operands' rfl] at hrest
        have hnext := ih h hrest hops' he hg'
        refine ⟨hnext.sound, fun s below hc hstack hstore henv => ?_⟩
        -- The machine comes back with the operands that the rest starts with.
        exact (hfirst.first hi hc hstack hstore (henv.resolve_left (by simp))).bind
          fun t => hnext.follows t below
      · have hfirst := evalInstruction_agrees hh hbody hvs hn hf hops he hg
        refine ⟨hfirst.sound, fun s below hc hstack hstore henv => ?_⟩
        -- A failure does not depend on where it happens.
        have hfails := hfirst.first hi hc hstack hstore (henv.resolve_left (by simp))
        exact hfails

theorem evalBody_agrees (hh : host.KeepsSound) : (evalBody host n).Agrees p host :=
  fun _ _ _ _ h hb he hg => evalBlock_agrees hh h hb (by simp) he hg

end ConsMachine
