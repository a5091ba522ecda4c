import Mathlib.Data.List.Flatten
import Mathlib.Data.List.Perm.Subperm
import ConsMachine.Proofs.Sites

/-!
# Programs that make no functions

A program is *first-order* if none of its instructions, wherever it stands in the blocks
of branches, makes a function or binds a global, and none pushes code
(`Value.isFirstOrder`).

The only code that such a program comes across is that of the continuations which its
branches save, and these are values: the program may pop them, store them in pairs and take
them out again. But none is ever doubled. As long as code cannot be bound to a name, all that
passes it on are the natives, and the built-in ones return no code more often than they are
given it (`Native.Sparing`). So an instruction other than a branch leaves no code on the
stack but what was there before (`State.FirstOrder.goesOn_execute`).
-/

namespace ConsMachine

/-! ### Code in values -/

/-- The functions and continuations that are found in a value by taking pairs apart, each as
    often as it is found. -/
def Value.coded : Value → List Value
  | pair _ a d => a.coded ++ d.coded
  | closure id arity hasRest code env => [closure id arity hasRest code env]
  | continuation id control env => [continuation id control env]
  | _ => []

/-- A native returns code only if it is given it, and no more often. -/
def Native.Sparing (f : Native) : Prop :=
  ∀ args next v next', f args next = .ok (v, next') →
    v.coded.Subperm (args.flatMap Value.coded)

/-- The built-in natives return each argument once at most, or a part of one. -/
theorem Builtin.sparing_run (op : Builtin) : op.run.Sparing := by
  intro args next v next' hv
  cases returns_of_run hv with
  | pair a d =>
    simp only [Value.coded, List.flatMap_cons, List.flatMap_nil, List.append_nil]
    exact .refl _
  | car =>
    simp only [Value.coded, List.flatMap_cons, List.flatMap_nil, List.append_nil]
    exact (List.sublist_append_left _ _).subperm
  | cdr =>
    simp only [Value.coded, List.flatMap_cons, List.flatMap_nil, List.append_nil]
    exact (List.sublist_append_right _ _).subperm
  | bool | number => exact List.nil_subperm

/-- No native of a host returns code more often than it is given it. -/
def Host.Sparing (host : Host) : Prop :=
  ∀ f ∈ host.natives, f.Sparing

theorem Host.sparing_bare : Host.bare.Sparing :=
  fun f hf => absurd hf (Array.not_mem_empty f)

theorem Host.Sparing.behaviour {host : Host} (h : host.Sparing) (f : NativeRef) :
    (host.behaviour f).Sparing :=
  Host.forall_behaviour Builtin.sparing_run h (by rintro e args next v next' ⟨⟩) f

/-! ### First-order programs -/

/-- Whether an instruction makes no function, binds no global, and pushes no code. -/
def Instruction.isFirstOrder : Instruction → Bool
  | push v => v.coded.isEmpty
  | closure .. | setGlobal _ => false
  | pop | access _ | call _ | branch .. | getGlobal _ => true

/-- Whether all instructions of a program are first-order, those in the blocks of branches
    too. -/
def Value.isFirstOrder (program : Value) : Bool :=
  (program.sites []).all fun site =>
    match Instruction.decode site.2 with
    | .ok i => i.isFirstOrder
    | .error _ => true

theorem Value.isFirstOrder_of_mem {program : Value} (h : program.isFirstOrder = true)
    {site : Site} (hsite : site ∈ program.sites []) {i : Instruction}
    (hi : Instruction.decode site.2 = .ok i) : i.isFirstOrder = true := by
  have hall := List.all_eq_true.1 h site hsite
  simpa only [hi] using hall

namespace State

/-- The code on the stack. -/
def waiting (s : State) : List Value :=
  s.stack.flatMap Value.coded

/-- In a first-order state there are no functions, and no continuations but on the stack. -/
structure FirstOrder (s : State) : Prop where
  env : ∀ v ∈ s.env, v.coded = []
  globals : ∀ name v, s.globals.find? name = some v → v.coded = []
  waiting : ∀ w ∈ s.waiting, ∃ id control env,
    w = .continuation id control env ∧ id < s.nextContinuation ∧ ∀ v ∈ env, v.coded = []

/-- A step goes on with the instructions at hand, and leaves no code on the stack but what
    is available. -/
structure GoesOn (available : List Value) (s t : State) : Prop where
  control : t.control = s.control
  env : t.env = s.env
  globals : t.globals = s.globals
  nextContinuation : t.nextContinuation = s.nextContinuation
  waiting : t.waiting.Subperm available

variable {host : Host} {s t : State} {f v : Value} {args : List Value} {i : Instruction}

theorem GoesOn.push (hv : v.coded = []) : GoesOn s.waiting s (s.push v) := by
  refine ⟨rfl, rfl, rfl, rfl, ?_⟩
  rw [State.waiting, State.push, List.flatMap_cons, hv, List.nil_append]
  exact .refl _

/-- Without functions, what is called is a native in the end, which returns no code but
    what is among the arguments. -/
theorem goesOn_call (hh : host.Sparing)
    (hnone : ∀ w ∈ (f :: args).flatMap Value.coded, w.kind ≠ .closure)
    (h : s.call .unlessDone host f args = .ok t) :
    GoesOn ((f :: args).flatMap Value.coded ++ s.waiting) s t := by
  -- By induction on the markers in front of the native; they are no code themselves.
  fun_induction call .unlessDone host s f args with
  | case1 => cases h
  | case2 f args ih => exact ih hnone h
  | case3 id arity hasRest code captured args =>
    exact absurd rfl (hnone _ List.mem_cons_self)
  | case4 => cases h
  | case5 f args v next hbehaviour =>
    cases h
    have hv : v.coded.Subperm (args.flatMap Value.coded) := hh.behaviour f _ _ _ _ hbehaviour
    exact ⟨rfl, rfl, rfl, rfl, (List.subperm_append_right _).2 hv⟩
  | case6 => cases h
  | case7 => cases h

/-- Instructions other than branches go on. -/
theorem FirstOrder.goesOn_execute (hh : host.Sparing) (hs : s.FirstOrder)
    (hi : i.isFirstOrder = true) (hbranch : ∀ a b, i ≠ .branch a b)
    (h : s.execute .unlessDone host i = .ok t) :
    GoesOn s.waiting s t := by
  cases i with
  | push v => cases h; exact .push (List.isEmpty_iff.1 hi)
  | closure | setGlobal => cases hi
  | branch a b => exact absurd rfl (hbranch a b)
  | pop =>
    simp only [execute] at h
    split at h
    · rename_i v below hstack
      cases h
      refine ⟨rfl, rfl, rfl, rfl, ?_⟩
      rw [State.waiting, State.waiting, hstack]
      exact ((List.sublist_cons_self v below).flatMap _).subperm
    · cases h
  | access index =>
    simp only [execute] at h
    split at h
    · rename_i v hv
      cases h
      exact .push (hs.env v (List.mem_of_getElem? hv))
    · cases h
  | getGlobal name =>
    simp only [execute] at h
    split at h
    · rename_i v hv
      cases h
      exact .push (hs.globals name v (Globals.get_eq_ok_iff.1 hv))
    · cases h
  | call count =>
    simp only [execute] at h
    split at h
    · rename_i args f below htake
      have hperm : ((f :: args).flatMap Value.coded ++ below.flatMap Value.coded).Perm
          s.waiting := by
        rw [← List.flatMap_append]
        exact (perm_of_takeCall htake).flatMap_right _
      have hnone : ∀ w ∈ (f :: args).flatMap Value.coded, w.kind ≠ .closure := by
        intro w hw
        obtain ⟨id, control, env, rfl, _⟩ :=
          hs.waiting w (hperm.subset (List.mem_append_left _ hw))
        rintro ⟨⟩
      have hcall := goesOn_call hh hnone h
      exact ⟨hcall.control, hcall.env, hcall.globals, hcall.nextContinuation,
        hcall.waiting.trans hperm.subperm⟩
    · cases h

end State

end ConsMachine
