import ConsMachine.Proofs.Answers

/-!
# Saving nothing where nothing remains

The machine saves a continuation only if instructions remain; the plain machine
always saves one. So the stack of the plain machine holds *spent* continuations,
with nothing left to run, that the stack of the machine does not. Otherwise the
two stacks are the same, segment by segment (`AwaitsAlike`), and so are the
states (`State.Alike`).

The plain machine resumes a spent continuation where the machine does nothing:
this leaves the states alike, and takes an entry off the plain stack. Every other
step is made by both machines, and keeps the states alike (`State.Alike.step`). So
each state of one run is alike to a state of the other (`Alike.forward`,
`Alike.backward`), and the two runs come out with the same answer, or both go on
for ever (`run_agrees_with_plain`).

The code has to be balanced: a block that takes off more than it has pushed would
find the spent continuations.
-/

namespace ConsMachine

/-! ### States that are alike -/

/-- Two stacks on which a value is awaited, of the machine and of the plain machine.
    They have the same segments of operands and the same continuations between
    them, apart from their identities; the plain one also has spent continuations
    between segments. -/
inductive AwaitsAlike : List Value → List Value → Prop
  | bottom : AwaitsAlike [] []
  | spent {id : Nat} {env below below' : List Value} :
      AwaitsAlike below below' → AwaitsAlike below (.continuation id .nil env :: below')
  | continuation {id id' : Nat} {control : Value} {env operands below below' : List Value} :
      Balanced env.length (operands.length + 1) control → (∀ v ∈ operands, Sound v) →
      (∀ v ∈ env, Sound v) → AwaitsAlike below below' →
      AwaitsAlike (.continuation id control env :: (operands ++ below))
        (.continuation id' control env :: (operands ++ below'))

/-- A state of the machine and one of the plain machine are alike: the same block
    runs in the same environment, with the same operands, above stacks that await
    its value alike. At the end of a block, the environment no longer matters. -/
structure State.Alike (awaited : Nat) (s s' : State) : Prop where
  control : s'.control = s.control
  store : s'.store = s.store
  env : s.control = .nil ∨ s'.env = s.env
  globals : s.globals.Sound
  sound_env : ∀ v ∈ s.env, Sound v
  stack : ∃ operands below below', s.stack = operands ++ below ∧ s'.stack = operands ++ below' ∧
    (∀ v ∈ operands, Sound v) ∧ Balanced s.env.length (operands.length + awaited) s.control ∧
    AwaitsAlike below below'

/-- Steps of both machines that lead to states that are alike, or fail with the same
    error and leave the same store. -/
inductive AlikeOutcome : Except Stop State → Except Stop State → Prop
  | ok {t t' : State} : t.Alike 0 t' → AlikeOutcome (.ok t) (.ok t')
  | error {e : Error} {left left' : State} : left'.store = left.store →
      AlikeOutcome (.error ⟨e, left⟩) (.error ⟨e, left'⟩)

variable {host : Host} {m n : Nat} {s s' t t' : State}

namespace State.Alike

theorem nextObject_eq (h : s.Alike n s') : s'.nextObject = s.nextObject :=
  congrArg Store.nextObject h.store

theorem globals_eq (h : s.Alike n s') : s'.globals = s.globals :=
  congrArg Store.globals h.store

theorem push (h : s.Alike 1 s') {v : Value} (hv : Sound v) : (s.push v).Alike 0 (s'.push v) := by
  obtain ⟨operands, below, below', hstack, hstack', hops, hb, ha⟩ := h.stack
  refine ⟨h.control, h.store, h.env, h.globals, h.sound_env, v :: operands, below, below', ?_, ?_,
    List.forall_mem_cons.2 ⟨hv, hops⟩, hb, ha⟩
  · simp [State.push, hstack]
  · simp [State.push, hstack']

theorem with_nextObject (h : s.Alike n s') (next : Nat) :
    State.Alike n { s with nextObject := next } { s' with nextObject := next } where
  control := h.control
  store := by simp [State.store, h.globals_eq]
  env := h.env
  globals := h.globals
  sound_env := h.sound_env
  stack := h.stack

/-- When a block or body is entered, its value is awaited alike: where the machine
    saves nothing, the plain machine saves a spent continuation. -/
theorem awaits_save (h : s.Alike 1 s') :
    AwaitsAlike (s.save .unlessDone).stack (s'.save .always).stack := by
  obtain ⟨operands, below, below', hstack, hstack', hops, hb, ha⟩ := h.stack
  have hplain : (s'.save .always).stack =
      .continuation s'.nextContinuation s.control s'.env :: s'.stack := by
    simp [save, h.control]
  rw [hplain, hstack']
  by_cases hc : s.control = .nil
  · -- Nothing is left of the running block, so it has no operands either.
    rw [hc, Balanced.nil_iff] at hb
    have hnil : operands = [] := List.eq_nil_of_length_eq_zero (Nat.succ.inj hb)
    subst hnil
    rw [save, if_pos ⟨rfl, Value.isNil_iff.2 hc⟩, hstack, hc]
    exact .spent ha
  · rw [save, if_neg fun hp => hc (Value.isNil_iff.1 hp.2), hstack, h.env.resolve_left hc]
    exact .continuation hb hops h.sound_env ha

/-- A block starts without operands of its own. -/
theorem of_awaits {awaiting awaiting' : List Value} (hc : s'.control = s.control)
    (hstore : s'.store = s.store) (henv : s'.env = s.env) (hg : s.globals.Sound)
    (he : ∀ v ∈ s.env, Sound v) (hstack : s.stack = awaiting) (hstack' : s'.stack = awaiting')
    (ha : AwaitsAlike awaiting awaiting') (hb : Balanced s.env.length 0 s.control) :
    s.Alike 0 s' :=
  ⟨hc, hstore, .inr henv, hg, he, [], awaiting, awaiting', hstack, hstack', by simp, hb, ha⟩

theorem call (hh : host.KeepsSound) (h : s.Alike 1 s') {f : Value} {args : List Value}
    (hf : Sound f) (ha : ∀ a ∈ args, Sound a) :
    AlikeOutcome (s.call .unlessDone host f args) (s'.call .always host f args) := by
  fun_induction State.call .unlessDone host s f args with
  | case1 => exact .error h.store
  | case2 f args ih =>
    rw [List.forall_mem_cons] at ha
    exact ih ha.1 ha.2
  | case3 id arity hasRest code captured args env next hb =>
    obtain ⟨hcode, hcap⟩ := Sound.closure_iff.1 hf
    simp only [State.call, h.nextObject_eq, hb]
    refine .ok (of_awaits rfl ?_ rfl ?_ (.bodyEnv hb hcap ha) rfl rfl h.awaits_save ?_)
    · simp [State.store, h.globals_eq]
    · simpa using h.globals
    · rw [length_of_bodyEnv hb]
      exact hcode
  | case4 id arity hasRest code captured args e hb =>
    simp only [State.call, h.nextObject_eq, hb]
    exact .error h.store
  | case5 f args v next hv =>
    simp only [State.call, h.nextObject_eq, hv]
    exact .ok ((h.push (hh.behaviour f args s.nextObject v next ha hv)).with_nextObject next)
  | case6 f args e hv =>
    simp only [State.call, h.nextObject_eq, hv]
    exact .error h.store
  | case7 f args hclosure hnative hnil hcons =>
    rw [State.call]
    · exact .error h.store
    all_goals assumption

/-- With the operands of its next instruction in the running block, both machines
    execute it alike: they differ in what is beneath these operands. -/
theorem execute (hh : host.KeepsSound) {i : Instruction} {operands below below' : List Value}
    (hg : s.globals.Sound) (he : ∀ v ∈ s.env, Sound v) (hstack : s.stack = operands ++ below)
    (hops : ∀ v ∈ operands, Sound v) (hi : i.needed ≤ operands.length)
    (hf : Fits s.env.length i)
    (hb : Balanced s.env.length (i.heightAfter operands.length) s.control)
    (ha : AwaitsAlike below below') (id : Nat) :
    AlikeOutcome (s.execute .unlessDone host i) (State.execute .always host
      { s with stack := operands ++ below', nextContinuation := id } i) := by
  -- With other operands left, the states are still alike but for the value awaited.
  have hleft {k : Nat} {rest : List Value} (hrest : ∀ v ∈ rest, Sound v)
      (hb : Balanced s.env.length (rest.length + k) s.control) : State.Alike k
      { s with stack := rest ++ below }
      { s with stack := rest ++ below', nextContinuation := id } :=
    ⟨rfl, rfl, .inr rfl, hg, he, rest, below, below', rfl, rfl, hrest, hb, ha⟩
  have hs : s = { s with stack := operands ++ below } := by rw [← hstack]
  rw [hs]
  cases hf with
  | push hv => exact .ok ((hleft hops hb).push hv)
  | pop =>
    obtain ⟨v, rest, rfl⟩ := List.exists_cons_of_length_pos hi
    exact .ok (hleft (List.forall_mem_cons.1 hops).2 hb)
  | access hindex =>
    simp only [State.execute, List.getElem?_eq_getElem hindex]
    exact .ok ((hleft hops hb).push (he _ (List.getElem_mem hindex)))
  | closure hcode => exact .ok (((hleft hops hb).push (.closure hcode he)).with_nextObject _)
  | call =>
    obtain ⟨args, f, rest, rfl, rfl⟩ := exists_eq_append_call hi
    have hops := List.forall_mem_append.1 hops
    have hrest := List.forall_mem_cons.1 hops.2
    rw [heightAfter_call] at hb
    simp only [State.execute, List.append_assoc, List.cons_append, takeCall_length,
      List.append_nil]
    exact (hleft hrest.2 hb).call hh hrest.1 fun a ha => hops.1 a (List.mem_reverse.2 ha)
  | branch hthen helse =>
    obtain ⟨test, rest, rfl⟩ := List.exists_cons_of_length_pos hi
    have hawaits := (hleft (List.forall_mem_cons.1 hops).2 hb).awaits_save
    refine .ok (of_awaits rfl ?_ ?_ (by simpa using hg) (by simpa using he) rfl rfl hawaits ?_)
    · simp [State.store]
    · simp
    · rw [save_env]
      exact hthen.ite helse
  | @getGlobal _ name =>
    cases hv : s.globals.get name with
    | ok v =>
      simp only [State.execute, hv]
      exact .ok ((hleft hops hb).push (hg.get hv))
    | error e =>
      simp only [State.execute, hv]
      exact .error rfl
  | setGlobal =>
    obtain ⟨v, rest, rfl⟩ := List.exists_cons_of_length_pos hi
    exact .ok ⟨rfl, rfl, .inr rfl, hg.bind _ (hops v List.mem_cons_self), he, v :: rest, below,
      below', rfl, rfl, hops, hb, ha⟩

/-- Where the plain machine is done, so is the machine, with the same result. -/
theorem of_isDone (h : s.Alike 0 s') (hd : s'.isDone = true) :
    s.isDone = true ∧ s'.result = s.result := by
  obtain ⟨hc', hlen⟩ := isDone_iff.1 hd
  have hc : s.control = .nil := h.control ▸ hc'
  obtain ⟨operands, below, below', hstack, hstack', _, hb, ha⟩ := h.stack
  rw [hc, Balanced.nil_iff] at hb
  obtain ⟨v, rfl⟩ := List.length_eq_one_iff.1 hb
  have hbelow' : below' = [] := List.eq_nil_of_length_eq_zero (by
    simp only [hstack', List.length_append, List.length_singleton] at hlen
    omega)
  subst hbelow'
  cases ha
  rw [result_eq_ok_iff.2 ⟨hc, hstack⟩, result_eq_ok_iff.2 ⟨hc', hstack'⟩]
  exact ⟨isDone_iff.2 ⟨hc, by rw [hstack]; exact Nat.le_refl 1⟩, rfl⟩

/-- The plain machine resumes a spent continuation, which leaves the states alike, or
    both machines make the same step. -/
theorem step (hh : host.KeepsSound) (h : s.Alike 0 s') (hd : s'.isDone = false) :
    (∃ t', s'.stepWith .always host = .ok t' ∧ t'.stack.length < s'.stack.length ∧
        s.Alike 0 t') ∨
      (s.isDone = false ∧
        AlikeOutcome (s.stepWith .unlessDone host) (s'.stepWith .always host)) := by
  obtain ⟨operands, below, below', hstack, hstack', hops, hb, ha⟩ := h.stack
  obtain hc | ⟨id, form, rest, hc⟩ := hb.eq_nil_or_pair
  · have hc' : s'.control = .nil := h.control.trans hc
    rw [hc, Balanced.nil_iff] at hb
    obtain ⟨v, rfl⟩ := List.length_eq_one_iff.1 hb
    cases ha with
    | bottom => simp [isDone, hc', hstack'] at hd
    | spent ha =>
      refine .inl ⟨_, stepWith_resume hc' hstack', by simp [hstack'], hc.symm, h.store, .inl hc,
        h.globals, h.sound_env, [v], _, _, hstack, rfl, hops, ?_, ha⟩
      rw [hc]
      exact .done
    | continuation hb hops' he ha =>
      refine .inr ⟨by simp [isDone, hc, hstack], ?_⟩
      rw [stepWith_resume hc hstack, stepWith_resume hc' hstack']
      exact .ok ⟨rfl, h.store, .inr rfl, h.globals, he, v :: _, _, _, rfl, rfl,
        List.forall_mem_cons.2 ⟨hops v List.mem_cons_self, hops'⟩, hb, ha⟩
  · have hc' : s'.control = .pair id form rest := h.control.trans hc
    have henv : s'.env = s.env := h.env.resolve_left (by rw [hc]; rintro ⟨⟩)
    rw [hc, Balanced.pair_iff] at hb
    obtain ⟨i, hi, hn, hf, hb⟩ := hb
    have hs' : { s' with control := rest } = { { s with control := rest } with
        stack := operands ++ below', nextContinuation := s'.nextContinuation } := by
      simp [← hstack', henv, h.globals_eq, h.nextObject_eq]
    refine .inr ⟨by simp [isDone, hc], ?_⟩
    rw [stepWith_of_decode hc hi, stepWith_of_decode hc' hi, hs']
    exact execute (s := { s with control := rest }) hh h.globals h.sound_env hstack hops hn hf hb
      ha _

/-- The plain machine resumes its spent continuations until it makes the next step of
    the machine, or is done as the machine is. -/
theorem catch_up (hh : host.KeepsSound) (h : s.Alike 0 s') :
    ∃ k t', Steps .always host k s' t' ∧ s.Alike 0 t' ∧ t'.isDone = s.isDone ∧
      (s.isDone = false →
        AlikeOutcome (s.stepWith .unlessDone host) (t'.stepWith .always host)) := by
  -- Each of them takes an entry off the plain stack.
  induction hn : s'.stack.length using Nat.strongRecOn generalizing s' with
  | ind n ih =>
    cases hd : s'.isDone with
    | true =>
      obtain ⟨hdone, _⟩ := h.of_isDone hd
      exact ⟨0, s', .refl s', h, hd.trans hdone.symm, by simp [hdone]⟩
    | false =>
      obtain ⟨u, hu, hlt, halike⟩ | ⟨hs, houtcome⟩ := h.step hh hd
      · obtain ⟨k, t', ht', h⟩ := ih _ (hn ▸ hlt) halike rfl
        exact ⟨k + 1, t', .head hu ht', h⟩
      · exact ⟨0, s', .refl s', h, hd.trans hs.symm, fun _ => houtcome⟩

/-- Each state of the machine's run is alike to one of the plain run, which is as far
    or further. -/
theorem forward (hh : host.KeepsSound) (h : s.Alike 0 s') (hst : Steps .unlessDone host n s t) :
    ∃ m t', n ≤ m ∧ Steps .always host m s' t' ∧ t.Alike 0 t' := by
  induction hst generalizing s' with
  | refl s => exact ⟨0, s', Nat.le_refl 0, .refl s', h⟩
  | @head n s u t hsu _ ih =>
    obtain ⟨k, w, hw, _, _, houtcome⟩ := h.catch_up hh
    replace houtcome := houtcome (Steps.single hsu).isDone_eq_false
    rw [hsu] at houtcome
    cases hwu : w.stepWith .always host with
    | error stop => rw [hwu] at houtcome; cases houtcome
    | ok u' =>
      rw [hwu] at houtcome
      obtain ⟨halike⟩ := houtcome
      obtain ⟨m, t', hnm, ht', h⟩ := ih halike
      exact ⟨k + (m + 1), t', by omega, hw.trans (.head hwu ht'), h⟩

/-- Each state of the plain run is alike to one of the machine's run, which is no
    further. -/
theorem backward (hh : host.KeepsSound) (h : s.Alike 0 s') (hst : Steps .always host m s' t') :
    ∃ n t, n ≤ m ∧ Steps .unlessDone host n s t ∧ t.Alike 0 t' := by
  induction hst generalizing s with
  | refl s' => exact ⟨0, s, Nat.le_refl 0, .refl s, h⟩
  | @head m s' u' t' hsu' _ ih =>
    obtain ⟨w, hw, _, halike⟩ | ⟨_, houtcome⟩ := h.step hh (Steps.single hsu').isDone_eq_false
    · rw [hsu'] at hw
      cases hw
      obtain ⟨n, t, hnm, ht⟩ := ih halike
      exact ⟨n, t, by omega, ht⟩
    · rw [hsu'] at houtcome
      cases hsu : s.stepWith .unlessDone host with
      | error stop => rw [hsu] at houtcome; cases houtcome
      | ok u =>
        rw [hsu] at houtcome
        obtain ⟨halike⟩ := houtcome
        obtain ⟨n, t, hnm, ht, h⟩ := ih halike
        exact ⟨n + 1, t, by omega, .head hsu ht, h⟩

end State.Alike

/-- A balanced block starts alike on both machines. -/
theorem Balanced.alike {env : List Value} {code : Value} {g : Globals}
    (hb : Balanced env.length 0 code) (he : ∀ v ∈ env, Sound v) (hg : g.Sound)
    (nextObject nextContinuation : Nat) :
    let start : State := ⟨code, [], env, g, nextObject, nextContinuation⟩
    start.Alike 0 start :=
  .of_awaits rfl rfl rfl hg he rfl rfl .bottom hb

/-! ### Answers -/

/-- A run comes out with a result or an error, and leaves a store. -/
inductive State.EndsWith (p : Saving) (host : Host) (s : State) :
    Except Error Value × Store → Prop
  | done {n : Nat} {t : State} : Steps p host n s t → t.isDone = true →
      EndsWith p host s (t.result, t.store)
  | failed {n : Nat} {t : State} {stop : Stop} : Steps p host n s t → t.isDone = false →
      t.stepWith p host = .error stop → EndsWith p host s (.error stop.error, stop.left.store)

variable {p : Saving} {r : Except Error Value × Store}

/-- The answers of the machine are those of its runs of limited length. -/
theorem State.endsWith_iff_answer_run :
    s.EndsWith .unlessDone host r ↔ ∃ n, (s.run host n).answer = some r := by
  constructor
  · rintro (⟨hst, hd⟩ | ⟨hst, hd, hstop⟩)
    · exact ⟨_, by rw [run_eq_finished_iff.2 ⟨_, Nat.le_refl _, hst, hd⟩]; rfl⟩
    · exact ⟨_, by rw [run_eq_failed_iff.2 ⟨_, Nat.lt_succ_self _, _, hst, hd, hstop⟩]; rfl⟩
  · rintro ⟨n, h⟩
    cases hrun : s.run host n with
    | finished t =>
      rw [hrun] at h
      cases h
      obtain ⟨k, _, hst, hd⟩ := run_eq_finished_iff.1 hrun
      exact .done hst hd
    | failed stop =>
      rw [hrun] at h
      cases h
      obtain ⟨k, _, t, hst, hd, hstop⟩ := run_eq_failed_iff.1 hrun
      exact .failed hst hd hstop
    | unfinished t =>
      rw [hrun] at h
      cases h

/-- A run goes on for ever exactly if it comes out with nothing. -/
theorem State.forall_steps_iff :
    (∀ n, ∃ t, Steps p host n s t) ↔ ∀ r, ¬ s.EndsWith p host r := by
  constructor
  · rintro hall _ (⟨hst, hd⟩ | ⟨hst, _, hstop⟩)
    · obtain ⟨u, hu⟩ := hall (_ + 1)
      exact absurd (hu.le_of_stuck hst (stepWith_of_isDone hd)) (Nat.not_succ_le_self _)
    · obtain ⟨u, hu⟩ := hall (_ + 1)
      exact absurd (hu.le_of_stuck hst hstop) (Nat.not_succ_le_self _)
  · intro hnone n
    induction n with
    | zero => exact ⟨s, .refl s⟩
    | succ n ih =>
      obtain ⟨t, ht⟩ := ih
      cases hd : t.isDone with
      | true => exact (hnone _ (.done ht hd)).elim
      | false =>
        cases hstep : t.stepWith p host with
        | ok u => exact ⟨u, ht.trans (.single hstep)⟩
        | error stop => exact (hnone _ (.failed ht hd hstep)).elim

/-- From states that are alike, both machines come out with the same. -/
theorem State.Alike.endsWith_iff (hh : host.KeepsSound) (h : s.Alike 0 s') :
    s.EndsWith .unlessDone host r ↔ s'.EndsWith .always host r := by
  constructor
  · rintro (⟨hst, hd⟩ | ⟨hst, hd, hstop⟩)
    all_goals
      obtain ⟨m, u, _, hu, halike⟩ := h.forward hh hst
      obtain ⟨k, w, hw, halike, hdw, houtcome⟩ := halike.catch_up hh
    · obtain ⟨_, hresult⟩ := halike.of_isDone (hdw.trans hd)
      rw [← halike.store, ← hresult]
      exact .done (hu.trans hw) (hdw.trans hd)
    · replace houtcome := houtcome hd
      rw [hstop] at houtcome
      generalize hwstep : w.stepWith .always host = outcome at houtcome
      obtain ⟨⟩ | ⟨hstore⟩ := houtcome
      rw [← hstore]
      exact .failed (hu.trans hw) (hdw.trans hd) hwstep
  · rintro (⟨hst, hd⟩ | ⟨hst, hd, hstop⟩)
    all_goals obtain ⟨n, u, _, hu, halike⟩ := h.backward hh hst
    · obtain ⟨hdone, hresult⟩ := halike.of_isDone hd
      rw [halike.store, hresult]
      exact .done hu hdone
    · obtain ⟨w, hw, _⟩ | ⟨hdu, houtcome⟩ := halike.step hh hd
      · rw [hstop] at hw
        cases hw
      · rw [hstop] at houtcome
        generalize hustep : u.stepWith .unlessDone host = outcome at houtcome
        obtain ⟨⟩ | ⟨hstore⟩ := houtcome
        rw [hstore]
        exact .failed hu hdu hustep

/-- Runs of every limited length are unfinished exactly if there are steps for ever. -/
theorem State.forall_unfinished_iff :
    (∀ n, ∃ t, s.run host n = .unfinished t) ↔ ∀ n, ∃ t, Steps .unlessDone host n s t := by
  constructor
  · intro h n
    obtain ⟨t, ht⟩ := h n
    exact ⟨t, (run_eq_unfinished_iff.1 ht).1⟩
  · intro h n
    obtain ⟨u, hu⟩ := h (n + 1)
    obtain ⟨t, ht⟩ := hu.exists_of_le (Nat.le_succ n)
    have hrest := ht.sub hu (Nat.le_succ n)
    rw [Nat.add_sub_cancel_left] at hrest
    exact ⟨t, run_eq_unfinished_iff.2 ⟨ht, hrest.isDone_eq_false⟩⟩

/-- Saving a continuation only where instructions remain makes no difference. On a
    balanced block, with sound values in the environment and the globals, and natives
    that keep values sound, the machine comes out with a result or an error and a
    store exactly when the plain machine does; and one runs for ever exactly when the
    other does. All along, each state of either run is alike to one of the other, to
    which the machine takes no more steps than the plain machine. -/
theorem run_agrees_with_plain {env : List Value} {code : Value} {g : Globals}
    (hh : host.KeepsSound) (hb : Balanced env.length 0 code) (he : ∀ v ∈ env, Sound v)
    (hg : g.Sound) (nextObject nextContinuation : Nat) :
    let start : State := ⟨code, [], env, g, nextObject, nextContinuation⟩
    (∀ r, (∃ n, (start.run host n).answer = some r) ↔ start.EndsWith .always host r) ∧
      ((∀ n, ∃ t, start.run host n = .unfinished t) ↔ ∀ n, ∃ t, Steps .always host n start t) ∧
      (∀ n t, Steps .unlessDone host n start t →
        ∃ m t', n ≤ m ∧ Steps .always host m start t' ∧ t.Alike 0 t') ∧
      ∀ m t', Steps .always host m start t' →
        ∃ n t, n ≤ m ∧ Steps .unlessDone host n start t ∧ t.Alike 0 t' := by
  intro start
  have halike : start.Alike 0 start := hb.alike he hg nextObject nextContinuation
  refine ⟨fun r => ?_, ?_, fun n t => halike.forward hh, fun m t' => halike.backward hh⟩
  · rw [← State.endsWith_iff_answer_run, halike.endsWith_iff hh]
  · simp only [State.forall_unfinished_iff, State.forall_steps_iff, halike.endsWith_iff hh]

/-- The plain machine returns what the machine does, on a program that calls, branches
    and binds a global. -/
theorem plain_sampleCall :
    (Host.bare.KeepsSound ∧ Balanced 0 0 sampleCall ∧ Globals.initial.Sound) ∧
      State.EndsWith .always .bare ⟨sampleCall, [], [], .initial, 50, 0⟩
        (.ok (.number 1), ⟨Globals.initial.bind "x" (.number 1), 51⟩) := by
  refine ⟨⟨Host.keepsSound_bare, sampleCall_balanced, Globals.Sound.initial⟩, ?_⟩
  have hb : Balanced ([] : List Value).length 0 sampleCall := sampleCall_balanced
  have henv : ∀ v ∈ ([] : List Value), Sound v := by simp
  refine ((run_agrees_with_plain Host.keepsSound_bare hb henv Globals.Sound.initial 50 0).1 _).1
    ⟨8, ?_⟩
  rw [run_eq_of_sampleCall]
  rfl

open Instruction in
/-- Without balance it makes a difference: a branch that takes off more than it has
    pushed takes the value beneath in the machine, and the spent continuation in the
    plain machine. -/
theorem endsWith_of_unbalanced :
    let code := (encodeAll [push (.number 7), push (.bool true),
      branch (encodeAll [pop, push (.number 1)] 0).1 .nil] 0).1
    let start : State := ⟨code, [], [], .empty, 50, 0⟩
    start.EndsWith .unlessDone .bare (.ok (.number 1), ⟨.empty, 50⟩) ∧
      start.EndsWith .always .bare
        (.error (.type (.notContinuation (.number 7))), ⟨.empty, 50⟩) := by
  intro code start
  have hmachine : Steps .unlessDone .bare 5 start ⟨.nil, [.number 1], [], .empty, 50, 0⟩ :=
    .head rfl (.head rfl (.head rfl (.head rfl (.single rfl))))
  have hplain : Steps .always .bare 5 start ⟨.nil, [.number 1, .number 7], [], .empty, 50, 1⟩ :=
    .head rfl (.head rfl (.head rfl (.head rfl (.single rfl))))
  exact ⟨.done hmachine rfl, .failed hplain rfl rfl⟩

end ConsMachine
