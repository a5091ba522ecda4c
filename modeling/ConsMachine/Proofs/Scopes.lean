import Mathlib.Algebra.BigOperators.Group.List.Basic
import Mathlib.Algebra.GroupWithZero.Nat
import ConsMachine.Proofs.Sameness

/-!
# Calls and scopes

A call of the apply marker is a call of its first argument, and so on for as many markers
as there are in front. They leave no trace: with the markers and without them a call has
the same outcome, whether it succeeds or fails (`step_apply_transparent`).

The body of a closure runs in an environment of its own: its variables, which are the
parameters and the list of the further arguments, and behind them the environment in
which the closure was made. A closure that is made in the body of another captures the
variables of both, and so on. So, however deep the scopes are nested, whenever a closure
is called, and from wherever, the variables of the scopes around its body lie one behind
the other in its environment, those of the innermost first
(`World.environment_is_lexical`).
-/

namespace ConsMachine

/-! ### The apply marker -/

section Markers

variable {p : Saving} {host : Host} {s : State} {f : Value} {args below : List Value} {k : Nat}

namespace State

/-- Each marker takes the next argument for what is called. -/
theorem call_replicate_apply (k : Nat) (f : Value) (args : List Value) :
    s.call p host .apply (List.replicate k .apply ++ f :: args) = s.call p host f args := by
  induction k with
  | zero => rw [List.replicate_zero, List.nil_append, call]
  | succ k ih => rw [List.replicate_succ, List.cons_append, call, ih]

/-- With nothing but markers, nothing is left to be called. -/
theorem call_apply_of_forall (h : ∀ a ∈ args, a = .apply) :
    s.call p host .apply args = .error ⟨.arity 1 0 true, s⟩ := by
  induction args with
  | nil => rw [call]
  | cons a args ih =>
    rw [List.forall_mem_cons] at h
    rw [call, h.1, ih h.2]

/-- The markers beneath a function are among the operands of a call that counts them. -/
theorem execute_call_markers
    (h : s.stack = args.reverse ++ f :: (List.replicate k .apply ++ below)) :
    s.execute p host (.call (args.length + k)) =
      call p host { s with stack := below } f args := by
  cases k with
  | zero =>
    have htake := takeCall_length args [] below f
    simp only [execute, h, List.replicate_zero, List.nil_append, Nat.add_zero, htake,
      List.append_nil]
  | succ k =>
    -- The lowest marker is called, with the others in front of its arguments.
    let given := List.replicate k .apply ++ f :: args
    have hgiven : args.length + (k + 1) = given.length := by
      simp [given]
      omega
    have hstack : s.stack = given.reverse ++ .apply :: below := by
      rw [h, List.replicate_succ']
      simp [given]
    have htake := takeCall_length given [] below .apply
    simp only [execute, hstack, hgiven, htake, List.append_nil]
    exact call_replicate_apply k f args

end State

/-- Apply markers are transparent. A call of a function with its arguments behind any
    number of markers, all counted as operands, has the outcome of the call without them:
    it succeeds with the same state, or fails with the same error and leaves the same. If
    the function is a marker as well, and so are all arguments, the call fails, as the
    markers lack an argument. -/
theorem step_apply_transparent {id id' : Nat} {form bare rest : Value}
    (hform : Instruction.decode form = .ok (.call (args.length + k)))
    (hbare : Instruction.decode bare = .ok (.call args.length)) :
    let marked : State := { s with
      control := .pair id form rest
      stack := args.reverse ++ f :: (List.replicate k .apply ++ below) }
    let unmarked : State := { s with
      control := .pair id' bare rest
      stack := args.reverse ++ f :: below }
    marked.step host = unmarked.step host ∧
      (f = .apply → (∀ a ∈ args, a = .apply) →
        marked.step host =
          .error ⟨.arity 1 0 true, { s with control := rest, stack := below }⟩) := by
  intro marked unmarked
  have hmarked : marked.step host =
      State.call .unlessDone host { s with control := rest, stack := below } f args := by
    rw [State.step, State.stepWith_of_decode rfl hform]
    exact State.execute_call_markers rfl
  have hunmarked : unmarked.step host =
      State.call .unlessDone host { s with control := rest, stack := below } f args := by
    rw [State.step, State.stepWith_of_decode rfl hbare]
    exact State.execute_call_markers (k := 0) rfl
  refine ⟨hmarked.trans hunmarked.symm, ?_⟩
  rintro rfl hargs
  rw [hmarked, State.call_apply_of_forall hargs]

open Instruction in
/-- A native fails behind two markers as it does without them. -/
theorem step_apply_transparent_native :
    let car : Value := .native (.builtin .car)
    let rest := (encodeAll [pop] 10).1
    let s : State := ⟨.nil, [], [.nil], .empty, 50, 3⟩
    let marked : State := { s with
      control := .pair 20 ((call 3).encode 21).1 rest
      stack := [.number 1, car, .apply, .apply, .number 9] }
    let unmarked : State := { s with
      control := .pair 20 ((call 1).encode 21).1 rest
      stack := [.number 1, car, .number 9] }
    (decode ((call 3).encode 21).1 = .ok (.call 3) ∧
        decode ((call 1).encode 21).1 = .ok (.call 1)) ∧
      marked.step .bare = unmarked.step .bare ∧
      marked.step .bare = .error ⟨.type (.carOf (.number 1)),
        { s with control := rest, stack := [.number 9] }⟩ := by
  intro car rest s marked unmarked
  have hform : decode ((call 3).encode 21).1 = .ok (.call 3) := rfl
  have hbare : decode ((call 1).encode 21).1 = .ok (.call 1) := rfl
  have h : marked.step .bare = unmarked.step .bare :=
    (@step_apply_transparent .bare s car [.number 1] [.number 9] 2 20 20 _ _ rest hform hbare).1
  exact ⟨⟨hform, hbare⟩, h, h.trans rfl⟩

end Markers

/-! ### Bodies -/

section Bodies

variable {host : Host} {s t : State} {f : Value} {args captured : List Value} {arity : Nat}
  {hasRest : Bool}

/-- The variables of a body: the parameters, and with `hasRest` the list of the further
    arguments, which is made of pairs with identities from `next` on. -/
def bodyScope (arity : Nat) (hasRest : Bool) (args : List Value) (next : Nat) : List Value :=
  args.take arity ++ if hasRest then [(Value.ofList (args.drop arity) .nil next).1] else []

/-- A number of arguments that a function does not take. -/
def Misfits (arity got : Nat) (hasRest : Bool) : Prop :=
  got < arity ∨ hasRest = false ∧ arity < got

theorem bodyEnv_eq_error (h : Misfits arity args.length hasRest) (captured : List Value)
    (next : Nat) :
    bodyEnv arity hasRest captured args next = .error (.arity arity args.length hasRest) := by
  unfold bodyEnv
  split
  · rfl
  · rename_i hlt
    obtain ⟨rfl, hgt⟩ := h.resolve_left hlt
    rw [if_neg Bool.false_ne_true, if_pos hgt]

/-- The variables of a body come before what the closure has captured. -/
theorem bodyEnv_eq_ok (h : ¬ Misfits arity args.length hasRest) (captured : List Value)
    (next : Nat) : ∃ next',
    bodyEnv arity hasRest captured args next =
      .ok (bodyScope arity hasRest args next ++ captured, next') := by
  obtain ⟨hlt, hgt⟩ := not_or.1 h
  unfold bodyEnv bodyScope
  rw [if_neg hlt]
  cases hasRest with
  | true => exact ⟨_, by rw [if_pos rfl, if_pos rfl, List.append_assoc]; rfl⟩
  | false =>
    have hle : args.length ≤ arity := Nat.le_of_not_lt fun hlong => hgt ⟨rfl, hlong⟩
    have hlen : args.length = arity := by omega
    exact ⟨next, by rw [if_neg Bool.false_ne_true, if_neg Bool.false_ne_true, if_neg (by omega),
      List.append_nil, List.take_of_length_le (Nat.le_of_eq hlen)]⟩

theorem env_of_bodyEnv {next next' : Nat} {env : List Value}
    (h : bodyEnv arity hasRest captured args next = .ok (env, next')) :
    env = bodyScope arity hasRest args next ++ captured := by
  by_cases hmisfits : Misfits arity args.length hasRest
  · rw [bodyEnv_eq_error hmisfits] at h
    cases h
  · obtain ⟨_, hbody⟩ := bodyEnv_eq_ok hmisfits captured next
    rw [hbody] at h
    cases h
    rfl

namespace State

/-- A closure that is called with a number of arguments that it does not take fails for
    this number, and with any other its body begins. -/
theorem Calls.step_closure {id : Nat} {code : Value}
    (h : s.Calls (.closure id arity hasRest code captured) args) (host : Host) :
    (Misfits arity args.length hasRest →
        ∃ left, s.step host = .error ⟨.arity arity args.length hasRest, left⟩) ∧
      (¬ Misfits arity args.length hasRest →
        ∃ t, s.step host = .ok t ∧ t.control = code ∧
          t.env = bodyScope arity hasRest args s.nextObject ++ captured) := by
  obtain ⟨rest, below, hstep⟩ := h.exists_step host
  simp only [call] at hstep
  constructor
  · intro hmisfits
    rw [bodyEnv_eq_error hmisfits] at hstep
    exact ⟨_, hstep⟩
  · intro hfits
    obtain ⟨next, hbody⟩ := bodyEnv_eq_ok hfits captured s.nextObject
    rw [hbody] at hstep
    exact ⟨_, hstep, rfl, rfl⟩

/-- The next step executes an instruction, and does not enter the body of a closure. -/
def Stays (s : State) : Prop :=
  (∃ i, s.Executes i) ∧ ∀ f args, s.Calls f args → f.kind ≠ .closure

theorem env_call {p : Saving} (h : s.call p host f args = .ok t)
    (hf : (applied f args).1.kind ≠ .closure) : t.env = s.env := by
  fun_induction call p host s f args with
  | case1 => cases h
  | case2 f args ih => exact ih h hf
  | case3 id arity hasRest code captured args =>
    rw [applied] at hf
    · exact absurd rfl hf
    · rintro _ _ ⟨⟩
  | case4 => cases h
  | case5 => cases h; rfl
  | case6 => cases h
  | case7 => cases h

/-- Within a body the environment stays as it is. -/
theorem Stays.env_eq (h : s.Stays) (ht : s.step host = .ok t) : t.env = s.env := by
  obtain ⟨⟨i, hexecutes⟩, hcalls⟩ := h
  obtain ⟨rest, hexecute⟩ := hexecutes.exists_execute ht
  cases i with
  | push | closure => cases hexecute; rfl
  | pop | access | getGlobal | setGlobal =>
    simp only [execute] at hexecute
    split at hexecute <;> cases hexecute
    rfl
  | branch =>
    simp only [execute] at hexecute
    split at hexecute <;> cases hexecute
    exact save_env _ _
  | call count =>
    simp only [execute] at hexecute
    split at hexecute
    · rename_i given g below htake
      exact env_call (s := { s with control := rest, stack := below }) hexecute
        (hcalls _ _ ⟨count, given, g, below, hexecutes, htake, rfl⟩)
    · cases hexecute

/-- An access leaves the value at its index. -/
theorem Executes.leaves_of_access {index : Nat} {v : Value} (h : s.Executes (.access index))
    (hv : s.env[index]? = some v) : s.Leaves host v := by
  obtain ⟨id, form, rest, hc, hi⟩ := h
  refine ⟨{ s with control := rest }.push v, ?_, rfl⟩
  rw [step, stepWith_of_decode hc hi]
  simp only [execute, hv]

end State

end Bodies

/-! ### Scopes -/

namespace World

/-- A world comes about from another, by any number of acts. -/
def Later : World → World → Prop :=
  Relation.ReflTransGen Act

/-- A thread makes its next step, which has an outcome, and goes on as another in the world
    that comes about by it. -/
inductive Moves (W : World) (th : Thread) : Except Stop State → World → Thread → Prop
  | step {before after : List Thread} {r : Except Stop State} :
      W.threads = before ++ th :: after → (W.state th).step W.session.host = r →
      Moves W th r (W.keep before after th (State.after r))
        ⟨th.engine, (State.after r).control, (State.after r).stack, (State.after r).env⟩

/-- A thread is in the bodies of closures, each made in the body of the next, or in the code
    that it began with for the last: the scopes are the variables of these bodies, from the
    innermost on, and `base` is the environment around them all. -/
inductive InScope (base : List Value) : List (List Value) → World → Thread → Prop
  | outermost {W : World} {th : Thread} :
      W.Reachable → th ∈ W.threads → th.env = base → InScope base [] W th
  /-- The thread waits while other things happen. -/
  | waits {scopes : List (List Value)} {W W' : World} {th : Thread} :
      InScope base scopes W th → W.Act W' → th ∈ W'.threads → InScope base scopes W' th
  /-- It executes an instruction of the body. -/
  | stays {scopes : List (List Value)} {W W' : World} {th th' : Thread} {t : State} :
      InScope base scopes W th → (W.state th).Stays → W.Moves th (.ok t) W' th' →
      InScope base scopes W' th'
  /-- It fails, and could be told to go on. -/
  | fails {scopes : List (List Value)} {W W' : World} {th th' : Thread} {stop : Stop} :
      InScope base scopes W th → W.Moves th (.error stop) W' th' → InScope base scopes W' th'
  /-- It comes back to the body: what a branch or call in it saved is resumed later. -/
  | returns {scopes : List (List Value)} {W W₁ W₂ W₃ : World} {th th₁ th₂ th₃ : Thread}
      {t u : State} {saved resumed v : Value} {below : List Value} :
      InScope base scopes W th → (W.state th).saves = true → W.Moves th (.ok t) W₁ th₁ →
      t.stack.head? = some saved → W₁.Later W₂ → th₂.control = .nil →
      th₂.stack = v :: resumed :: below → resumed.same saved = true →
      W₂.Moves th₂ (.ok u) W₃ th₃ → InScope base scopes W₃ th₃
  /-- It enters another body: a closure that was made in this one is called later. -/
  | enters {scopes : List (List Value)} {W W₁ W₂ W₃ : World} {th th₁ th₂ th₃ : Thread}
      {t u : State} {arity : Nat} {hasRest : Bool} {code made called : Value}
      {args : List Value} :
      InScope base scopes W th → (W.state th).Executes (.closure arity hasRest code) →
      W.Moves th (.ok t) W₁ th₁ → t.stack.head? = some made → W₁.Later W₂ →
      (W₂.state th₂).Calls called args → called.same made = true →
      W₂.Moves th₂ (.ok u) W₃ th₃ →
      InScope base (bodyScope arity hasRest args W₂.session.nextObject :: scopes) W₃ th₃

variable {W W' W₁ W₂ : World} {th th' : Thread} {r : Except Stop State} {base v : List Value}

/-- What was in the coherent set of a world stays in that of a later one. -/
theorem Within.later {S : Set Value} (h : W.Within S) (hlater : W.Later W') :
    ∃ S', S ⊆ S' ∧ W'.Within S' := by
  induction hlater with
  | refl => exact ⟨S, subset_rfl, h⟩
  | tail _ hact ih =>
    obtain ⟨S₁, hsub, hS₁⟩ := ih
    obtain ⟨S₂, hsub', hS₂⟩ := hS₁.act hact
    exact ⟨S₂, hsub.trans hsub', hS₂⟩

theorem Reachable.later (h : W.Reachable) (hlater : W.Later W') : W'.Reachable := by
  induction hlater with
  | refl => exact h
  | tail _ hact ih => exact ih.act hact

namespace Moves

theorem act (h : W.Moves th r W' th') : W.Act W' := by
  obtain ⟨hthreads, rfl⟩ := h
  exact .step hthreads

theorem step_eq (h : W.Moves th r W' th') : (W.state th).step W.session.host = r := by
  obtain ⟨_, hstep⟩ := h
  exact hstep

theorem mem (h : W.Moves th r W' th') : th ∈ W.threads := by
  obtain ⟨hthreads, _⟩ := h
  exact hthreads ▸ List.mem_append_right _ List.mem_cons_self

theorem mem_after (h : W.Moves th r W' th') : th' ∈ W'.threads := by
  obtain ⟨_, _⟩ := h
  exact List.mem_append_right _ List.mem_cons_self

theorem stack_eq (h : W.Moves th r W' th') : th'.stack = (State.after r).stack := by
  obtain ⟨_, _⟩ := h
  rfl

theorem env_eq (h : W.Moves th r W' th') : th'.env = (State.after r).env := by
  obtain ⟨_, _⟩ := h
  rfl

end Moves

/-- A value that a thread has on its stack, and that is the same as one which a step left
    on a stack before, is this value. -/
theorem Moves.eq_of_same {t : State} {left found : Value} {th₁ th₂ : Thread} (hW : W.Reachable)
    (hmoves : W.Moves th (.ok t) W₁ th₁) (hleft : t.stack.head? = some left)
    (hlater : W₁.Later W₂) (hth : th₂ ∈ W₂.threads) (hfound : found ∈ th₂.stack)
    (hsame : found.same left = true) : found = left := by
  obtain ⟨S₁, hS₁⟩ := (hW.act hmoves.act).within
  obtain ⟨S₂, hsub, hS₂⟩ := hS₁.later hlater
  have hmem : left ∈ th₁.stack := hmoves.stack_eq ▸ List.mem_of_mem_head? hleft
  exact hS₂.coherent.eq_of_same ((hS₂.threads th₂ hth).stack found hfound)
    (hsub ((hS₁.threads th₁ hmoves.mem_after).stack left hmem)) hsame

/-- By induction on the way to the body. -/
theorem InScope.env_eq {scopes : List (List Value)} (h : InScope base scopes W th) :
    W.Reachable ∧ th.env = scopes.flatten ++ base := by
  induction h with
  | outermost hW _ henv => exact ⟨hW, henv⟩
  | waits _ hact _ ih => exact ⟨ih.1.act hact, ih.2⟩
  | stays _ hstays hmoves ih =>
    refine ⟨ih.1.act hmoves.act, ?_⟩
    rw [hmoves.env_eq, ← ih.2]
    exact hstays.env_eq hmoves.step_eq
  | fails _ hmoves ih =>
    refine ⟨ih.1.act hmoves.act, ?_⟩
    rw [hmoves.env_eq, ← ih.2]
    exact (State.consumed_of_stepWith hmoves.step_eq).env
  | returns _ hsaves hmoves hsaved hlater hnil hstack hsame hreturns ih =>
    have hW₂ := (ih.1.act hmoves.act).later hlater
    refine ⟨hW₂.act hreturns.act, ?_⟩
    have hfound := hmoves.eq_of_same ih.1 hsaved hlater hreturns.mem
      (by rw [hstack]; exact List.mem_cons_of_mem _ List.mem_cons_self) hsame
    -- The continuation has the environment of the body, and resuming it brings this back.
    obtain ⟨_, _, rest, _, _, hleft⟩ := State.exists_rest_of_saves hsaves hmoves.step_eq
    rw [hleft] at hsaved
    cases hsaved
    subst hfound
    have hstep := hreturns.step_eq
    rw [State.step, State.stepWith_resume hnil hstack] at hstep
    cases hstep
    rw [hreturns.env_eq, ← ih.2]
    rfl
  | enters _ hexecutes hmoves hmade hlater hcalls hsame henters ih =>
    have hW₂ := (ih.1.act hmoves.act).later hlater
    refine ⟨hW₂.act henters.act, ?_⟩
    have hfound := hmoves.eq_of_same ih.1 hmade hlater henters.mem hcalls.mem_stack.1 hsame
    -- The closure has captured the environment of the body that it was made in.
    obtain ⟨rest, hexecute⟩ := hexecutes.exists_execute hmoves.step_eq
    cases hexecute
    cases hmade
    subst hfound
    rw [henters.env_eq, List.flatten_cons, List.append_assoc, ← ih.2]
    exact env_of_bodyEnv (hcalls.of_closure henters.step_eq)

/-- The environment that consists of some scopes has a variable of one of them behind all
    variables of those before it. -/
theorem getElem?_flatten_scopes {scopes : List (List Value)} {scope : List Value} {v : Value}
    {j i : Nat} (hscope : (scopes ++ [base])[j]? = some scope) (hv : scope[i]? = some v) :
    (scopes.flatten ++ base)[(((scopes ++ [base]).map List.length).take j).sum + i]? = some v := by
  obtain ⟨hj, hget⟩ := List.getElem?_eq_some_iff.1 hscope
  have hi : i < scope.length := (List.getElem?_eq_some_iff.1 hv).1
  -- The environment around all scopes is one more of them.
  have hflat : scopes.flatten ++ base = (scopes ++ [base]).flatten := by simp
  rw [hflat, ← List.getElem?_drop, List.drop_sum_flatten, List.drop_eq_getElem_cons hj, hget,
    List.flatten_cons, List.getElem?_append_left hi, hv]

/-- Environments are lexical scopes.

    * A call of a closure fails for the number of arguments exactly if there are fewer of
      them than parameters, or more and no list takes them. Otherwise its body begins, in
      the environment of the arguments for the parameters in the order of the call, of one
      proper list with the others in their order if there is a list for them, and of all
      that the closure has captured.
    * If a thread is in the body of a closure that was made in the body of another, and so
      on, its environment consists of the variables of these scopes, those of the innermost
      first, and of the environment around them all. This is so for any number of scopes,
      however much later the closures were called, and whatever else has happened. So the
      variable `i` of a scope is accessed by an index that is greater than `i` by the number
      of all variables of the scopes within it. -/
theorem environment_is_lexical :
    (∀ (host : Host) (s : State) (id arity : Nat) (hasRest : Bool) (code : Value)
        (captured args : List Value), s.Calls (.closure id arity hasRest code captured) args →
      ((∃ left, s.step host = .error ⟨.arity arity args.length hasRest, left⟩) ↔
          args.length < arity ∨ hasRest = false ∧ arity < args.length) ∧
        (¬ (args.length < arity ∨ hasRest = false ∧ arity < args.length) →
          ∃ t, s.step host = .ok t ∧ t.control = code ∧
            (hasRest = false → t.env = args ++ captured) ∧
            (hasRest = true → ∃ others : Value, others.list? = some (args.drop arity) ∧
              t.env = args.take arity ++ others :: captured))) ∧
      ∀ (base : List Value) (scopes : List (List Value)) (W : World) (th : Thread),
        InScope base scopes W th →
          th.env = scopes.flatten ++ base ∧
            ∀ (j i : Nat) (scope : List Value) (v : Value),
              (scopes ++ [base])[j]? = some scope → scope[i]? = some v →
                (W.state th).Executes
                    (.access ((((scopes ++ [base]).map List.length).take j).sum + i)) →
                  (W.state th).Leaves W.session.host v := by
  refine ⟨fun host s id arity hasRest code captured args hcalls => ?_,
    fun base scopes W th hin => ⟨hin.env_eq.2, fun j i scope v hscope hv hexecutes => ?_⟩⟩
  · obtain ⟨hmisfits, hfits⟩ := hcalls.step_closure host
    refine ⟨⟨fun ⟨left, hleft⟩ => ?_, hmisfits⟩, fun hnot => ?_⟩
    · by_contra hnot
      obtain ⟨t, ht, _⟩ := hfits hnot
      rw [hleft] at ht
      cases ht
    · obtain ⟨t, ht, hcode, henv⟩ := hfits hnot
      refine ⟨t, ht, hcode, ?_, ?_⟩
      · rintro rfl
        have hlen : args.length ≤ arity := Nat.le_of_not_lt fun hgt => hnot (.inr ⟨rfl, hgt⟩)
        rw [henv, bodyScope, if_neg Bool.false_ne_true, List.append_nil,
          List.take_of_length_le hlen]
      · rintro rfl
        refine ⟨_, Value.list?_ofList _ s.nextObject, ?_⟩
        rw [henv, bodyScope, if_pos rfl, List.append_assoc, List.singleton_append]
  · refine hexecutes.leaves_of_access ?_
    have henv : (W.state th).env = scopes.flatten ++ base := hin.env_eq.2
    rw [henv]
    exact getElem?_flatten_scopes hscope hv

open Instruction in
/-- A function is made in the body of another, and called when that body has long been left.
    From its own body it accesses the parameter of the other, behind its own. -/
theorem environment_is_lexical_nested :
    ∃ (W : World) (th : Thread), InScope [] [[.number 8], [.number 7]] W th ∧
      (W.state th).Executes (.access 1) ∧ th.env = [.number 8, .number 7] ∧
      (W.state th).Leaves W.session.host (.number 7) := by
  -- The host writes the two bodies and the program down, from the inside, and begins it.
  have hinner := Reachable.empty.act (@Act.construct _ (.program [access 1]) _ _
    (by simp [Construction.operands, Instruction.operands, Has, Value.key?]) rfl)
  have houter := hinner.act (@Act.construct _ (.program [closure 1 false _]) _ _
    (List.forall_mem_cons.2 ⟨.inl rfl, List.forall_mem_cons.2 ⟨.inl rfl,
      List.forall_mem_cons.2 ⟨.of_held List.mem_cons_self, List.forall_mem_nil _⟩⟩⟩) rfl)
  have hcalls := houter.act (@Act.construct _ (.program [closure 1 false _, push (.number 7),
      call 1, push (.number 8), call 1]) _ _
    (List.forall_mem_cons.2 ⟨.inl rfl, List.forall_mem_cons.2 ⟨.inl rfl,
      List.forall_mem_cons.2 ⟨.of_held List.mem_cons_self,
        by simp [Instruction.operands, Has, Value.key?]⟩⟩⟩) rfl)
  have hthread := hcalls.act (@Act.begin _ 0 _ [] [] (by decide)
    (.of_held List.mem_cons_self) (by simp) (by simp))
  have houtermost := InScope.outermost hthread List.mem_cons_self rfl
  -- The outer function is made, and called at the second step after it; in its body the inner
  -- one is made, which is called after the program is resumed.
  have hentered := houtermost.enters ⟨_, _, _, rfl, rfl⟩ (@Moves.step _ _ [] [] _ rfl rfl) rfl
    (.single (@Act.step _ [] [] _ rfl)) ⟨1, _, _, _, ⟨_, _, _, rfl, rfl⟩, rfl, rfl⟩ rfl
    (@Moves.step _ _ [] [] _ rfl rfl)
  have hnested := hentered.enters ⟨_, _, _, rfl, rfl⟩ (@Moves.step _ _ [] [] _ rfl rfl) rfl
    ((Relation.ReflTransGen.single (@Act.step _ [] [] _ rfl)).tail (@Act.step _ [] [] _ rfl))
    ⟨1, _, _, _, ⟨_, _, _, rfl, rfl⟩, rfl, rfl⟩ rfl (@Moves.step _ _ [] [] _ rfl rfl)
  obtain ⟨henv, haccess⟩ := environment_is_lexical.2 _ _ _ _ hnested
  refine ⟨_, _, hnested, ?executes, henv, haccess 1 0 _ _ rfl rfl ?executes⟩
  exact ⟨_, _, _, rfl, rfl⟩

end World

end ConsMachine
