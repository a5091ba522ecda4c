import ConsMachine.Proofs.Identity

/-!
# Objects of a run

The values of a state are in a coherent set (`State.Within`), and what a step makes is new to
it. By cases on the instructions, a step of the machine extends the set (`State.Within.step`):
pushing, popping and binding hand on what is there, a closure, a list of further arguments and a
continuation get identities that the supplies give out for the first time, and natives make
objects as the machine does.
-/

namespace ConsMachine

/-! ### Steps -/

/-- The values of a state are in a coherent set, and the state continues its supplies. -/
structure State.Within (natives : Nat) (S : Set Value) (s : State) : Prop where
  coherent : Coherent ⟨s.nextObject, s.nextContinuation, natives⟩ S
  control : s.control ∈ S
  stack : ∀ v ∈ s.stack, v ∈ S
  env : ∀ v ∈ s.env, v ∈ S
  globals : ∀ name v, s.globals.find? name = some v → v ∈ S

variable {p : Saving} {host : Host} {captured : List Value} {n : Nat} {S : Set Value}
  {s t : State}

namespace State.Within

theorem with_control (h : s.Within n S) {control : Value} (hc : control ∈ S) :
    State.Within n S { s with control := control } :=
  ⟨h.coherent, hc, h.stack, h.env, h.globals⟩

theorem with_stack (h : s.Within n S) {stack : List Value} (hs : ∀ v ∈ stack, v ∈ S) :
    State.Within n S { s with stack := stack } :=
  ⟨h.coherent, h.control, hs, h.env, h.globals⟩

theorem push (h : s.Within n S) (hv : v ∈ S) : (s.push v).Within n S :=
  h.with_stack (List.forall_mem_cons.2 ⟨hv, h.stack⟩)

/-- With a larger coherent set, and supplies to match. -/
theorem extend {S' : Set Value} {next : Nat} (h : s.Within n S) (hsub : S ⊆ S')
    (hS' : Coherent ⟨next, s.nextContinuation, n⟩ S') :
    State.Within n S' { s with nextObject := next } :=
  ⟨hS', hsub h.control, fun v hv => hsub (h.stack v hv), fun v hv => hsub (h.env v hv),
    fun name v hv => hsub (h.globals name v hv)⟩

theorem save (h : s.Within n S) : ∃ S', S ⊆ S' ∧ (s.save p).Within n S' := by
  unfold State.save
  split
  · exact ⟨S, subset_rfl, h⟩
  · have hsub := Set.subset_insert (.continuation s.nextContinuation s.control s.env) S
    refine ⟨_, hsub, h.coherent.continuation h.control h.env, hsub h.control, ?_,
      fun v hv => hsub (h.env v hv), fun name v hv => hsub (h.globals name v hv)⟩
    exact List.forall_mem_cons.2 ⟨Set.mem_insert _ _, fun v hv => hsub (h.stack v hv)⟩

theorem call (hh : host.Local captured) (hcap : ∀ v ∈ captured, v ∈ S) (h : s.Within n S)
    {f : Value} {args : List Value} (hf : f ∈ S) (ha : ∀ a ∈ args, a ∈ S)
    (ht : s.call p host f args = .ok t) : ∃ S', S ⊆ S' ∧ t.Within n S' := by
  fun_induction State.call p host s f args with
  | case1 => cases ht
  | case2 f args ih =>
    rw [List.forall_mem_cons] at ha
    exact ih ha.1 ha.2 ht
  | case3 id arity hasRest code closed args env next hb =>
    cases ht
    have hcode : code ∈ S := h.coherent.closed hf (.code (.self code))
    have hclosed : ∀ v ∈ closed, v ∈ S := fun v hv => h.coherent.closed hf (.captured hv (.self v))
    obtain ⟨S₁, hsub₁, hsave⟩ := h.save (p := p)
    have hobject := save_nextObject p s
    obtain ⟨S₂, hsub₂, hS₂, henv⟩ := hsave.coherent.exists_bodyEnv
      (fun v hv => hsub₁ (hclosed v hv)) (fun v hv => hsub₁ (ha v hv)) (by rw [hobject]; exact hb)
    have hgrown := hsave.extend hsub₂ hS₂
    exact ⟨S₂, hsub₁.trans hsub₂, hgrown.coherent, hsub₂ (hsub₁ hcode), hgrown.stack, henv,
      hgrown.globals⟩
  | case4 => cases ht
  | case5 f args v next hv =>
    cases ht
    obtain ⟨S', hsub, hS', hmem⟩ := h.coherent.exists_madeOf
      (List.forall_mem_append.2 ⟨ha, hcap⟩) (hh.behaviour f args _ v next hv)
    have hgrown := (h.extend hsub hS').push hmem
    exact ⟨S', hsub, hgrown⟩
  | case6 => cases ht
  | case7 => cases ht

/-- The operands of an instruction occur in its form. -/
theorem execute (hh : host.Local captured) (hcap : ∀ v ∈ captured, v ∈ S) (h : s.Within n S)
    {form : Value} {i : Instruction} (hform : form ∈ S) (hi : Instruction.decode form = .ok i)
    (ht : s.execute p host i = .ok t) : ∃ S', S ⊆ S' ∧ t.Within n S' := by
  have hstack := h.stack
  obtain ⟨hpush, hbody, hbranch⟩ := Instruction.occurs_of_decode hi
  cases i with
  | push v =>
    cases ht
    exact ⟨S, subset_rfl, h.push (h.coherent.closed hform (hpush v rfl))⟩
  | pop =>
    simp only [State.execute] at ht
    split at ht
    · rename_i hs
      cases ht
      rw [hs, List.forall_mem_cons] at hstack
      exact ⟨S, subset_rfl, h.with_stack hstack.2⟩
    · cases ht
  | access index =>
    simp only [State.execute] at ht
    split at ht
    · rename_i hv
      cases ht
      exact ⟨S, subset_rfl, h.push (h.env _ (List.mem_of_getElem? hv))⟩
    · cases ht
  | closure arity hasRest code =>
    cases ht
    have hcode : code ∈ S := h.coherent.closed hform (hbody arity hasRest code rfl)
    have hmade : Coherent ⟨s.nextObject + 1, s.nextContinuation, n⟩
        (insert (.closure s.nextObject arity hasRest code s.env) S) :=
      h.coherent.closure hcode h.env
    exact ⟨_, Set.subset_insert _ S, (h.extend (Set.subset_insert _ S) hmade).push
      (Set.mem_insert _ S)⟩
  | call count =>
    simp only [State.execute] at ht
    split at ht
    · rename_i args f below htake
      have htaken : ∀ v ∈ f :: args ++ below, v ∈ S := fun v hv =>
        hstack v ((perm_of_takeCall htake).subset hv)
      rw [List.cons_append, List.forall_mem_cons, List.forall_mem_append] at htaken
      exact (h.with_stack htaken.2.2).call hh hcap htaken.1 htaken.2.1 ht
    · cases ht
  | branch thenCode elseCode =>
    simp only [State.execute] at ht
    split at ht
    · rename_i test below hs
      cases ht
      rw [hs, List.forall_mem_cons] at hstack
      obtain ⟨hthen, helse⟩ := hbranch thenCode elseCode rfl
      obtain ⟨S', hsub, hsave⟩ := (h.with_stack hstack.2).save (p := p)
      refine ⟨S', hsub, hsave.with_control (hsub ?_)⟩
      split
      · exact h.coherent.closed hform hthen
      · exact h.coherent.closed hform helse
    · cases ht
  | getGlobal name =>
    simp only [State.execute] at ht
    split at ht
    · rename_i v hv
      cases ht
      exact ⟨S, subset_rfl, h.push (h.globals name v (Globals.get_eq_ok_iff.1 hv))⟩
    · cases ht
  | setGlobal name =>
    simp only [State.execute] at ht
    split at ht
    · rename_i v below hs
      cases ht
      rw [hs, List.forall_mem_cons] at hstack
      refine ⟨S, subset_rfl, h.coherent, h.control, h.stack, h.env, fun other w hw => ?_⟩
      replace hw : (s.globals.bind name v).find? other = some w := hw
      rw [Globals.find?_bind] at hw
      split at hw
      · cases hw
        exact hstack.1
      · exact h.globals other w hw
    · cases ht

theorem resume (h : s.Within n S) (ht : s.resume = .ok t) : t.Within n S := by
  have hstack := h.stack
  unfold State.resume at ht
  split at ht
  · rename_i hs
    cases ht
    rw [hs, List.forall_mem_cons, List.forall_mem_cons] at hstack
    obtain ⟨hv, hcont, hbelow⟩ := hstack
    exact ⟨h.coherent, h.coherent.closed hcont (.control (.self _)),
      List.forall_mem_cons.2 ⟨hv, hbelow⟩,
      fun v hv => h.coherent.closed hcont (.saved hv (.self v)), h.globals⟩
  all_goals cases ht

/-- A step makes objects only with identities that are given out for the first time. -/
theorem step_ok (hh : host.Local captured) (hcap : ∀ v ∈ captured, v ∈ S) (h : s.Within n S)
    (ht : s.stepWith p host = .ok t) : ∃ S', S ⊆ S' ∧ t.Within n S' := by
  rw [stepWith, if_neg (by simp [(Steps.single ht).isDone_eq_false])] at ht
  split at ht
  · exact ⟨S, subset_rfl, h.resume ht⟩
  · rename_i id form rest hc
    have hcontrol : .pair id form rest ∈ S := hc ▸ h.control
    have hrest : rest ∈ S := h.coherent.closed hcontrol (.cdr (.self rest))
    have hform : form ∈ S := h.coherent.closed hcontrol (.car (.self form))
    split at ht
    · rename_i i hi
      exact (h.with_control hrest).execute hh hcap hform hi ht
    · cases ht
  · cases ht

/-- A step that fails makes nothing. -/
theorem left {stop : Stop} (h : s.Within n S) (ht : s.stepWith p host = .error stop) :
    stop.left.Within n S := by
  have hleft := consumed_of_stepWith ht
  refine ⟨?_, ?_, fun v hv => h.stack v (hleft.stack.mem hv), ?_, ?_⟩
  · rw [hleft.nextObject, hleft.nextContinuation]
    exact h.coherent
  · obtain heq | ⟨id, form, heq⟩ := hleft.control
    · exact heq ▸ h.control
    · have hcontrol := heq ▸ h.control
      exact h.coherent.closed hcontrol (.cdr (.self _))
  · exact hleft.env ▸ h.env
  · exact hleft.globals ▸ h.globals

/-- Whether a step succeeds or fails, its values are in a larger coherent set. -/
theorem step (hh : host.Local captured) (hcap : ∀ v ∈ captured, v ∈ S) (h : s.Within n S) :
    ∃ S', S ⊆ S' ∧ (State.after (s.step host)).Within n S' := by
  cases ht : s.step host with
  | ok t => exact h.step_ok hh hcap ht
  | error stop => exact ⟨S, subset_rfl, h.left ht⟩

end State.Within

end ConsMachine
