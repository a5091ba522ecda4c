import ConsMachine.Proofs.Agreement

/-!
# Runs have the answers of the evaluator

Started on a balanced block with an empty stack, the machine computes what the
direct-style evaluator does (`exists_answer_run_iff`): the run ends with a value
exactly when the evaluator has this value, it fails with an error exactly when the
evaluator fails with this error, and globals and identities are left the same. The
run goes on for ever exactly when the evaluation does.

That a run follows an evaluation is known from `evalBlock_agrees`. Conversely, a
run that comes to an end comes to the end of each part of the program in fewer
steps, so by induction on the number of steps each part has an evaluation
(`evaluatesWithin`), and what the run follows is this one.
-/

namespace ConsMachine

variable {p : Saving} {host : Host} {m n : Nat} {s t : State}

/-! ### Runs that come to an end -/

/-- Within `n` steps, the machine comes to a state without a next one. -/
def Halts (p : Saving) (host : Host) (n : Nat) (s : State) : Prop :=
  ∃ k ≤ n, ∃ t stop, Steps p host k s t ∧ t.stepWith p host = .error stop

/-- Steps that were made count. -/
theorem Halts.after (h : Halts p host n s) (hst : Steps p host m s t) :
    m ≤ n ∧ Halts p host (n - m) t := by
  obtain ⟨k, hk, u, stop, hsu, hu⟩ := h
  have hmk : m ≤ k := hst.le_of_stuck hsu hu
  exact ⟨by omega, k - m, by omega, u, stop, hst.sub hsu hmk, hu⟩

/-- Blocks have an evaluation if the machine comes to an end within `n` steps. -/
def EvaluatesWithin (p : Saving) (host : Host) (n : Nat) : Prop :=
  ∀ (s : State) (operands below : List Value), s.stack = operands ++ below →
    Balanced s.env.length operands.length s.control → (∀ v ∈ operands, Sound v) →
    (∀ v ∈ s.env, Sound v) → s.globals.Sound → Halts p host n s →
    ∃ depth r, evalBlock host depth s.env operands s.control s.store = some r

/-- A branch or body that the machine has entered. -/
theorem EvaluatesWithin.entered (h : EvaluatesWithin p host n) {env : List Value} {code : Value}
    {σ : Store} (hhalts : Halts p host n t) (hc : t.control = code) (henv : t.env = env)
    (hstore : t.store = σ) (hb : Balanced env.length 0 code) (he : ∀ v ∈ env, Sound v)
    (hg : σ.globals.Sound) : ∃ depth r, evalBody host depth env code σ = some r := by
  subst hc henv hstore
  exact h t [] t.stack rfl hb (by simp) he hg hhalts

/-- At the end of a block there is a value. -/
theorem exists_evalBlock_nil {len : Nat} {env operands : List Value} {σ : Store}
    (hb : Balanced len operands.length .nil) :
    ∃ depth r, evalBlock host depth env operands .nil σ = some r := by
  obtain ⟨v, rfl⟩ := List.length_eq_one_iff.1 (Balanced.nil_iff.1 hb)
  exact ⟨1, _, rfl⟩

/-- A call has an evaluation, if the body that it enters has one. -/
theorem exists_evalCall {f : Value} {args : List Value} (hf : Sound f)
    (ha : ∀ v ∈ args, Sound v) (hg : s.globals.Sound)
    (hbody : ∀ t, s.call p host f args = .ok t → ∃ n, EvaluatesWithin p host n ∧ Halts p host n t) :
    ∃ depth r, evalCall host (evalBody host depth) f args s.store = some r := by
  fun_induction State.call p host s f args with
  | case1 => exact ⟨0, _, rfl⟩
  | case2 f args ih =>
    rw [List.forall_mem_cons] at ha
    exact ih ha.1 ha.2 hbody
  | case3 id arity hasRest code captured args env next hb =>
    obtain ⟨hcode, hcap⟩ := Sound.closure_iff.1 hf
    rw [← length_of_bodyEnv hb] at hcode
    obtain ⟨n, heval, hhalts⟩ := hbody _ rfl
    obtain ⟨depth, r, hr⟩ : ∃ depth r, evalBody host depth env code
        { s.store with nextObject := next } = some r :=
      heval.entered hhalts rfl rfl (by simp [State.store]) hcode (.bodyEnv hb hcap ha) hg
    replace hb : bodyEnv arity hasRest captured args s.store.nextObject = .ok (env, next) := hb
    exact ⟨depth, r, by simp only [evalCall, hb, hr]⟩
  | case4 id arity hasRest code captured args e hb =>
    replace hb : bodyEnv arity hasRest captured args s.store.nextObject = .error e := hb
    exact ⟨0, _, by simp only [evalCall, hb]; rfl⟩
  | case5 f args v next hv =>
    replace hv : host.behaviour f args s.store.nextObject = .ok (v, next) := hv
    exact ⟨0, _, by simp only [evalCall, hv]; rfl⟩
  | case6 f args e hv =>
    replace hv : host.behaviour f args s.store.nextObject = .error e := hv
    exact ⟨0, _, by simp only [evalCall, hv]; rfl⟩
  | case7 args f hclosure hnative hnil hcons =>
    refine ⟨0, (.error (.type (.notCallable f)), s.store), ?_⟩
    rw [evalCall]
    all_goals assumption

/-- An instruction has an evaluation, if the branch or body that it enters has one. -/
theorem exists_evalInstruction {operands below : List Value} {i : Instruction}
    (hstack : s.stack = operands ++ below) (hn : i.needed ≤ operands.length)
    (hf : Fits s.env.length i) (hops : ∀ v ∈ operands, Sound v) (he : ∀ v ∈ s.env, Sound v)
    (hg : s.globals.Sound)
    (henter : ∀ t, s.execute p host i = .ok t →
      ∃ n, EvaluatesWithin p host n ∧ Halts p host n t) :
    ∃ depth r, evalInstruction host (evalBody host depth) s.env operands i s.store = some r := by
  cases hf with
  | push | closure | getGlobal => exact ⟨0, _, rfl⟩
  | pop | setGlobal =>
    obtain ⟨v, rest, rfl⟩ := List.exists_cons_of_length_pos hn
    exact ⟨0, _, rfl⟩
  | access hindex => exact ⟨0, _, by simp only [evalInstruction, List.getElem?_eq_getElem hindex]; rfl⟩
  | call =>
    obtain ⟨args, f, rest, rfl, rfl⟩ := exists_eq_append_call hn
    have hops := List.forall_mem_append.1 hops
    have hrest := List.forall_mem_cons.1 hops.2
    rw [List.append_assoc, List.cons_append] at hstack
    simp only [State.execute, hstack, takeCall_length, List.append_nil] at henter
    simp only [evalInstruction, List.drop_left' List.length_reverse,
      List.take_left' List.length_reverse, List.reverse_reverse]
    obtain ⟨depth, r, hr⟩ := exists_evalCall (s := { s with stack := rest ++ below }) hrest.1
      (fun a ha => hops.1 a (List.mem_reverse.2 ha)) hg henter
    exact ⟨depth, _, Option.bind_eq_some_iff.2 ⟨r, hr, rfl⟩⟩
  | @branch _ thenCode elseCode hthen helse =>
    obtain ⟨test, rest, rfl⟩ := List.exists_cons_of_length_pos hn
    rw [List.cons_append] at hstack
    simp only [State.execute, hstack] at henter
    obtain ⟨n, heval, hhalts⟩ := henter _ rfl
    obtain ⟨depth, r, hr⟩ : ∃ depth r, evalBody host depth s.env
        (if test.isTrue then thenCode else elseCode) s.store = some r :=
      heval.entered hhalts rfl (by simp) (by simp [State.store]) (hthen.ite helse) he hg
    exact ⟨depth, _, Option.bind_eq_some_iff.2 ⟨r, hr, rfl⟩⟩

/-- Where the machine comes to an end, there is an evaluation: by induction on the
    number of steps. -/
theorem evaluatesWithin (p : Saving) (hh : host.KeepsSound) (n : Nat) :
    EvaluatesWithin p host n := by
  induction n using Nat.strongRecOn with
  | ind n ih =>
    intro s operands below hstack hb hops he hg hhalts
    obtain hc | ⟨id, form, rest, hc⟩ := hb.eq_nil_or_pair
    · rw [hc] at hb ⊢
      exact exists_evalBlock_nil hb
    · rw [hc, Balanced.pair_iff] at hb
      obtain ⟨i, hi, hn, hf, hrest⟩ := hb
      have hstep : s.stepWith p host = State.execute p host { s with control := rest } i :=
        State.stepWith_of_decode hc hi
      rw [hc]
      -- What the instruction enters has one step less to go.
      obtain ⟨m, ⟨a, σ₁⟩, hvs⟩ := exists_evalInstruction (p := p)
        (s := { s with control := rest }) hstack hn hf hops he hg fun t ht => by
          obtain ⟨hle, hhalts⟩ := hhalts.after (.single (hstep.trans ht))
          exact ⟨n - 1, ih (n - 1) (by omega), hhalts⟩
      cases a with
      | error e => exact ⟨m + 1, _, (evalBlock_pair_iff hi).2 (.inr ⟨e, σ₁, hvs, rfl⟩)⟩
      | ok operands' =>
        have hbody : (evalBody host m).Agrees p host := evalBody_agrees hh
        have hfirst := evalInstruction_agrees hh hbody hvs hn hf hops he hg
        obtain ⟨hops', hg'⟩ := hfirst.sound
        rw [← hfirst.length operands' rfl] at hrest
        obtain ⟨k, u, t, hu, hut, hc', hstack', rfl, henv⟩ :=
          hfirst.follows { s with control := rest } below hstack rfl rfl
        obtain ⟨hle, hhalts⟩ := hhalts.after (.head (hstep.trans hu) hut)
        -- After the instruction, the rest of the block has fewer steps to go.
        obtain ⟨l, r, hr⟩ : ∃ depth r, evalBlock host depth s.env operands' rest t.store = some r := by
          obtain rfl | henv := henv
          · exact exists_evalBlock_nil hrest
          · replace henv : t.env = s.env := henv
            subst hc'
            rw [← henv] at hrest he ⊢
            exact ih _ (by omega) t operands' below hstack' hrest hops' he hg' hhalts
        refine ⟨max m l + 1, r, (evalBlock_pair_iff hi).2 (.inl ⟨operands', t.store, ?_, ?_⟩)⟩
        · exact evalInstruction_extends (evalBody_mono (Nat.le_max_left m l)) hvs
        · exact evalBlock_mono (Nat.le_max_right m l) hr

/-! ### Answers -/

/-- What a run that has ended says: its result or error, and the store it leaves. -/
def Outcome.answer : Outcome → Option (Except Error Value × Store)
  | .finished s => some (s.result, s.store)
  | .failed stop => some (.error stop.error, stop.left.store)
  | .unfinished _ => none

/-- A longer run has the same answer. -/
theorem State.answer_run_of_le {r : Except Error Value × Store} (hmn : m ≤ n)
    (h : (s.run host m).answer = some r) : (s.run host n).answer = some r := by
  cases hrun : s.run host m with
  | finished t =>
    rw [hrun] at h
    obtain ⟨k, hk, ht⟩ := run_eq_finished_iff.1 hrun
    rwa [run_eq_finished_iff.2 ⟨k, Nat.le_trans hk hmn, ht⟩]
  | failed stop =>
    rw [hrun] at h
    obtain ⟨k, hk, ht⟩ := run_eq_failed_iff.1 hrun
    rwa [run_eq_failed_iff.2 ⟨k, Nat.lt_of_lt_of_le hk hmn, ht⟩]
  | unfinished t =>
    rw [hrun] at h
    cases h

/-- All runs from one state that have an answer have the same. -/
theorem State.answer_run_unique {r r' : Except Error Value × Store}
    (h : (s.run host m).answer = some r) (h' : (s.run host n).answer = some r') : r = r' := by
  have h := answer_run_of_le (Nat.le_max_left m n) h
  have h' := answer_run_of_le (Nat.le_max_right m n) h'
  exact Option.some.inj (h.symm.trans h')

/-- A run with an answer has come to an end. -/
theorem State.halts_of_answer_run {r : Except Error Value × Store}
    (h : (s.run host n).answer = some r) : Halts .unlessDone host n s := by
  cases hrun : s.run host n with
  | finished t =>
    obtain ⟨k, hk, hst, hd⟩ := run_eq_finished_iff.1 hrun
    exact ⟨k, hk, t, _, hst, stepWith_of_isDone hd⟩
  | failed stop =>
    obtain ⟨k, hk, t, hst, _, ht⟩ := run_eq_failed_iff.1 hrun
    exact ⟨k, Nat.le_of_lt hk, t, stop, hst, ht⟩
  | unfinished t =>
    rw [hrun] at h
    cases h

/-- The steps to the state in which the machine fails. -/
theorem Fails.exists_steps {e : Error} {σ : Store} (h : Fails p host e σ (.ok s)) :
    ∃ k t left, Steps p host k s t ∧ t.isDone = false ∧
      t.stepWith p host = .error ⟨e, left⟩ ∧ left.store = σ := by
  -- The induction is on the steps up to the failure, from the result of any step.
  generalize hr : Except.ok s = r at h
  induction h generalizing s with
  | now => cases hr
  | @later u hd hstep ih =>
    cases hr
    cases hu : u.stepWith p host with
    | error stop =>
      rw [hu] at hstep
      cases hstep with
      | now hstore => exact ⟨0, u, _, .refl u, hd, hu, hstore⟩
    | ok w =>
      obtain ⟨k, t, left, hwt, ht⟩ := ih hu.symm
      exact ⟨k + 1, t, left, .head hu hwt, ht⟩

/-- What follows an evaluation on an empty stack is a run with its answer. -/
theorem Follows.exists_answer_run {v : Except Error Value} {σ : Store} {env : List Value}
    (h : Follows .unlessDone host .nil env [] (.ok s) (v.map fun v => [v], σ)) :
    ∃ n, (s.run host n).answer = some (v, σ) := by
  cases v with
  | error e =>
    obtain ⟨k, t, left, hst, hd, ht, rfl⟩ := Fails.exists_steps h
    have hrun : s.run host (k + 1) = .failed ⟨e, left⟩ :=
      State.run_eq_failed_iff.2 ⟨k, Nat.lt_succ_self k, t, hst, hd, ht⟩
    exact ⟨k + 1, by rw [hrun]; rfl⟩
  | ok v =>
    obtain ⟨k, _, t, ⟨⟩, hst, hc, hstack, rfl, _⟩ := h
    have hresult : t.result = .ok v := State.result_eq_ok_iff.2 ⟨hc, hstack⟩
    have hd : t.isDone = true := State.isDone_iff.2 ⟨hc, by rw [hstack]; exact Nat.le_refl 1⟩
    have hrun : s.run host k = .finished t :=
      State.run_eq_finished_iff.2 ⟨k, Nat.le_refl k, hst, hd⟩
    exact ⟨k, by rw [hrun, Outcome.answer, hresult]⟩

/-- The machine computes what the direct-style evaluator does. On a balanced block,
    with sound values in the environment and the globals, and natives that keep
    values sound, a run from the empty stack ends with an answer exactly when the
    evaluator has it: the same value or the same error, with the same globals and
    identities left behind; and the run never ends exactly when the evaluator has
    no answer, whatever the depth. -/
theorem exists_answer_run_iff {env : List Value} {code : Value} {g : Globals}
    (hh : host.KeepsSound) (hb : Balanced env.length 0 code) (he : ∀ v ∈ env, Sound v)
    (hg : g.Sound) (nextObject nextContinuation : Nat) :
    let start : State := ⟨code, [], env, g, nextObject, nextContinuation⟩
    (∀ r, (∃ n, (start.run host n).answer = some r) ↔
        ∃ depth, evalBlock host depth env [] code ⟨g, nextObject⟩ = some r) ∧
      ((∀ n, ∃ t, start.run host n = .unfinished t) ↔
        ∀ depth, evalBlock host depth env [] code ⟨g, nextObject⟩ = none) := by
  intro start
  have hrun {depth r} (h : evalBlock host depth env [] code ⟨g, nextObject⟩ = some r) :
      ∃ n, (start.run host n).answer = some r := by
    have hagrees : AgreesOnBlock .unlessDone host env [] code ⟨g, nextObject⟩ r.1 r.2 :=
      evalBlock_agrees hh h hb (by simp) he hg
    exact (hagrees.follows start [] rfl rfl rfl (.inr rfl)).exists_answer_run
  have heval {n r} (h : (start.run host n).answer = some r) :
      ∃ depth, evalBlock host depth env [] code ⟨g, nextObject⟩ = some r := by
    obtain ⟨depth, r', hr⟩ := evaluatesWithin .unlessDone hh n start [] [] rfl hb (by simp) he hg
      (State.halts_of_answer_run h)
    -- The run follows the evaluation that there is, and a run has only one answer.
    obtain ⟨m, hm⟩ := hrun hr
    rw [State.answer_run_unique h hm]
    exact ⟨depth, hr⟩
  refine ⟨fun r => ⟨fun ⟨n, h⟩ => heval h, fun ⟨depth, h⟩ => hrun h⟩, fun h depth => ?_,
    fun h n => ?_⟩
  · cases hr : evalBlock host depth env [] code ⟨g, nextObject⟩ with
    | none => rfl
    | some r =>
      obtain ⟨n, hn⟩ := hrun hr
      obtain ⟨t, ht⟩ := h n
      rw [ht] at hn
      cases hn
  · have hnone (r) (hr : (start.run host n).answer = some r) : False := by
      obtain ⟨depth, hdepth⟩ := heval hr
      rw [h depth] at hdepth
      cases hdepth
    cases hr : start.run host n with
    | unfinished t => exact ⟨t, rfl⟩
    | finished t => exact (hnone _ (by rw [hr]; rfl)).elim
    | failed stop => exact (hnone _ (by rw [hr]; rfl)).elim

/-- The evaluator has the answer of a run that calls, branches and binds a global. -/
theorem evalBlock_sampleCall :
    (Host.bare.KeepsSound ∧ Balanced 0 0 sampleCall ∧ Globals.initial.Sound) ∧
      ∃ depth, evalBlock .bare depth [] [] sampleCall ⟨.initial, 50⟩ =
        some (.ok (.number 1), ⟨Globals.initial.bind "x" (.number 1), 51⟩) := by
  refine ⟨⟨Host.keepsSound_bare, sampleCall_balanced, Globals.Sound.initial⟩, ?_⟩
  have hb : Balanced ([] : List Value).length 0 sampleCall := sampleCall_balanced
  have henv : ∀ v ∈ ([] : List Value), Sound v := by simp
  refine ((exists_answer_run_iff Host.keepsSound_bare hb henv
    Globals.Sound.initial 50 0).1 _).1 ⟨8, ?_⟩
  rw [run_eq_of_sampleCall]
  rfl

end ConsMachine
