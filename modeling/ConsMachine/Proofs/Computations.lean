import ConsMachine.Proofs.Answers

/-!
# Computations

What a program computes depends only on its instructions, however its code came about
(`Value.Codes`). `Computes` says that all code of some instructions is evaluated to one
result, at some depth, and the rules for it go from instruction to instruction, as the
evaluator does. A run of a program has the result that the program computes
(`Computes.exists_answer_run`).
-/

namespace ConsMachine

variable {host : Host} {env operands below : List Value} {code v : Value} {i : Instruction}
  {is : List Instruction} {σ σ₁ : Store} {r : Except Error Value × Store}

/-! ### Code -/

/-- The code of some instructions: a list of forms, one for each instruction. -/
inductive Value.Codes : Value → List Instruction → Prop where
  | nil : Codes .nil []
  | cons {id : Nat} {form rest : Value} {i : Instruction} {is : List Instruction}
      (hi : Instruction.decode form = .ok i) (h : Codes rest is) :
      Codes (.pair id form rest) (i :: is)

/-- The instructions make a balanced block. -/
def BalancedAll (len : Nat) : (height : Nat) → List Instruction → Prop
  | height, [] => height = 1
  | height, i :: is => i.needed ≤ height ∧ Fits len i ∧ BalancedAll len (i.heightAfter height) is

theorem Value.Codes.balanced (hcode : code.Codes is) {len height : Nat}
    (h : BalancedAll len height is) : Balanced len height code := by
  induction hcode generalizing height with
  | nil => exact Balanced.nil_iff.2 h
  | cons hi _ ih => exact .instr hi h.1 h.2.1 (ih h.2.2)

/-! ### Rules -/

/-- All code of these instructions is evaluated to this result. -/
def Computes (host : Host) (env operands : List Value) (is : List Instruction) (σ : Store)
    (r : Except Error Value × Store) : Prop :=
  ∀ code : Value, code.Codes is → ∃ depth, evalBlock host depth env operands code σ = some r

namespace Computes

/-- At the end, the only operand is the value. -/
theorem done {a : Except Error Value} (h : a = .ok v) : Computes host env [v] [] σ (a, σ) := by
  rintro _ ⟨⟩
  exact ⟨1, by rw [h]; rfl⟩

/-- An instruction that succeeds leaves its operands to the rest. -/
theorem next {operands' : List Value}
    (hfirst : ∃ depth, evalInstruction host (evalBody host depth) env operands i σ =
      some (.ok operands', σ₁))
    (h : Computes host env operands' is σ₁ r) : Computes host env operands (i :: is) σ r := by
  rintro _ (_ | ⟨hi, hrest⟩)
  obtain ⟨m, hm⟩ := hfirst
  obtain ⟨n, hn⟩ := h _ hrest
  refine ⟨max m n + 1, (evalBlock_pair_iff hi).2 (.inl ⟨operands', σ₁, ?_, ?_⟩)⟩
  · exact evalInstruction_extends (evalBody_mono (Nat.le_max_left m n)) hm
  · exact evalBlock_mono (Nat.le_max_right m n) hn

/-- An instruction that fails is the last one. -/
theorem stop {e : Error}
    (hfirst : ∃ depth, evalInstruction host (evalBody host depth) env operands i σ =
      some (.error e, σ₁)) : Computes host env operands (i :: is) σ (.error e, σ₁) := by
  rintro _ (_ | ⟨hi, _⟩)
  obtain ⟨n, hn⟩ := hfirst
  exact ⟨n + 1, (evalBlock_pair_iff hi).2 (.inr ⟨e, σ₁, hn, rfl⟩)⟩

theorem push (h : Computes host env (v :: operands) is σ r) :
    Computes host env operands (.push v :: is) σ r :=
  h.next ⟨0, rfl⟩

theorem access {index : Nat} (hv : env[index]? = some v)
    (h : Computes host env (v :: operands) is σ r) :
    Computes host env operands (.access index :: is) σ r :=
  h.next ⟨0, by rw [evalInstruction, hv]⟩

theorem getGlobal {name : String} (hv : σ.globals.get name = .ok v)
    (h : Computes host env (v :: operands) is σ r) :
    Computes host env operands (.getGlobal name :: is) σ r :=
  h.next ⟨0, by rw [evalInstruction, hv]; rfl⟩

/-- The result of a branch is an operand of the rest, or it is the error. -/
theorem branch {test thenCode elseCode : Value} {a : Except Error Value}
    (hbranch : ∃ depth, evalBody host depth env (if test.isTrue then thenCode else elseCode) σ =
      some (a, σ₁))
    (hok : ∀ v, a = .ok v → Computes host env (v :: operands) is σ₁ r)
    (herror : ∀ e, a = .error e → (.error e, σ₁) = r) :
    Computes host env (test :: operands) (.branch thenCode elseCode :: is) σ r := by
  obtain ⟨n, hn⟩ := hbranch
  have hfirst : evalInstruction host (evalBody host n) env (test :: operands)
      (.branch thenCode elseCode) σ = some (a.map (· :: operands), σ₁) :=
    Option.bind_eq_some_iff.2 ⟨_, hn, rfl⟩
  cases a with
  | ok v => exact (hok v rfl).next ⟨n, hfirst⟩
  | error e => exact herror e rfl ▸ stop ⟨n, hfirst⟩

/-- The result of a call is an operand of the rest, or it is the error. -/
theorem call {f : Value} (args : List Value) {a : Except Error Value}
    (hcall : ∃ depth, evalCall host (evalBody host depth) f args σ = some (a, σ₁))
    (hok : ∀ v, a = .ok v → Computes host env (v :: operands) is σ₁ r)
    (herror : ∀ e, a = .error e → (.error e, σ₁) = r) :
    Computes host env (args.reverse ++ f :: operands) (.call args.length :: is) σ r := by
  obtain ⟨n, hn⟩ := hcall
  have hfirst : evalInstruction host (evalBody host n) env (args.reverse ++ f :: operands)
      (.call args.length) σ = some (a.map (· :: operands), σ₁) := by
    simp only [evalInstruction, List.drop_left' List.length_reverse,
      List.take_left' List.length_reverse, List.reverse_reverse]
    exact Option.bind_eq_some_iff.2 ⟨_, hn, rfl⟩
  cases a with
  | ok v => exact (hok v rfl).next ⟨n, hfirst⟩
  | error e => exact herror e rfl ▸ stop ⟨n, hfirst⟩

/-- A branch comes to what its instructions compute. -/
theorem exists_evalBody (h : Computes host env [] is σ r) (hcode : code.Codes is) :
    ∃ depth, evalBody host depth env code σ = some r :=
  h code hcode

/-- A call of a closure comes to what its body computes. -/
theorem exists_evalCall {id arity : Nat} {hasRest : Bool} {captured args : List Value}
    {next : Nat} (h : Computes host env [] is { σ with nextObject := next } r)
    (hcode : code.Codes is)
    (henv : bodyEnv arity hasRest captured args σ.nextObject = .ok (env, next)) :
    ∃ depth, evalCall host (evalBody host depth) (.closure id arity hasRest code captured) args σ =
      some r := by
  obtain ⟨n, hn⟩ := h.exists_evalBody hcode
  exact ⟨n, by simp only [evalCall, henv, hn]⟩

/-- A run of balanced code has the result that the code computes. -/
theorem exists_answer_run {g : Globals} {nextObject : Nat} (hh : host.KeepsSound)
    (h : Computes host env [] is ⟨g, nextObject⟩ r) (hcode : code.Codes is)
    (hb : BalancedAll env.length 0 is) (he : ∀ v ∈ env, Sound v) (hg : g.Sound)
    (nextContinuation : Nat) :
    ∃ n, ((⟨code, [], env, g, nextObject, nextContinuation⟩ : State).run host n).answer =
      some r := by
  obtain ⟨depth, hdepth⟩ := h code hcode
  have hagrees : AgreesOnBlock .unlessDone host env [] code ⟨g, nextObject⟩ r.1 r.2 :=
    evalBlock_agrees hh hdepth (hcode.balanced hb) (by simp) he hg
  exact (hagrees.follows _ [] rfl rfl rfl (.inr rfl)).exists_answer_run

end Computes

end ConsMachine
