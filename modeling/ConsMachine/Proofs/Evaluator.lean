import ConsMachine.Machine.Step

/-!
# A direct-style evaluator

The machine has no call stack: what to return to is saved on the stack of values,
between operands. The evaluator says what programs compute without any of this:
a block is evaluated instruction by instruction with operands of its own, and a
branch or the body of a closure is evaluated to its value where it stands, by a
recursive call. There are no continuations.

An evaluation reads a `Store`, comes out with a result or an error, and leaves
another store. As it need not come to an end, its recursion is limited to a depth,
and at the limit it comes out with nothing. A greater depth never changes what an
evaluation came out with (`evalBlock_mono`).
-/

namespace ConsMachine

/-- What a program changes besides its operands. -/
structure Store where
  globals : Globals
  /-- The identity of the next pair or closure. -/
  nextObject : Nat

/-- An evaluation of branches and bodies, in an environment, to a value or an error. -/
abbrev BlockEvaluator :=
  List Value → Value → Store → Option (Except Error Value × Store)

/-- The value of a call. -/
def evalCall (host : Host) (block : BlockEvaluator) :
    Value → List Value → Store → Option (Except Error Value × Store)
  | .apply, [], σ => some (.error (.arity 1 0 true), σ)
  | .apply, f :: args, σ => evalCall host block f args σ
  | .closure _ arity hasRest code captured, args, σ =>
    match bodyEnv arity hasRest captured args σ.nextObject with
    | .ok (env, next) => block env code { σ with nextObject := next }
    | .error e => some (.error e, σ)
  | .native f, args, σ =>
    match host.behaviour f args σ.nextObject with
    | .ok (v, next) => some (.ok v, { σ with nextObject := next })
    | .error e => some (.error e, σ)
  | f, _, σ => some (.error (.type (.notCallable f)), σ)

/-- The operands after an instruction; the latest operand comes first. -/
def evalInstruction (host : Host) (block : BlockEvaluator) (env operands : List Value)
    (i : Instruction) (σ : Store) : Option (Except Error (List Value) × Store) :=
  match i with
  | .push v => some (.ok (v :: operands), σ)
  | .pop =>
    match operands with
    | _ :: rest => some (.ok rest, σ)
    | [] => some (.error (.underflow 1 0), σ)
  | .access index =>
    match env[index]? with
    | some v => some (.ok (v :: operands), σ)
    | none => some (.error (.outOfEnvironment index env.length), σ)
  | .closure arity hasRest code =>
    some (.ok (.closure σ.nextObject arity hasRest code env :: operands),
      { σ with nextObject := σ.nextObject + 1 })
  | .call count =>
    match operands.drop count with
    | f :: rest => do
      let (v, σ) ← evalCall host block f (operands.take count).reverse σ
      some (v.map (· :: rest), σ)
    | [] => some (.error (.underflow (count + 1) operands.length), σ)
  | .branch thenCode elseCode =>
    match operands with
    | test :: rest => do
      let (v, σ) ← block env (if test.isTrue then thenCode else elseCode) σ
      some (v.map (· :: rest), σ)
    | [] => some (.error (.underflow 1 0), σ)
  | .getGlobal name => some ((σ.globals.get name).map (· :: operands), σ)
  | .setGlobal name =>
    match operands with
    | v :: _ => some (.ok operands, { σ with globals := σ.globals.bind name v })
    | [] => some (.error (.underflow 1 0), σ)

/-- Evaluate the rest of a block in `env`, with the operands that are left of
    those pushed so far, and up to a depth of recursion. The value is the only
    operand at the end. -/
def evalBlock (host : Host) : Nat → List Value → List Value → Value → Store →
    Option (Except Error Value × Store)
  | 0, _, _, _, _ => none
  | depth + 1, env, operands, code, σ =>
    match code with
    | .nil =>
      match operands with
      | [v] => some (.ok v, σ)
      | _ => some (.error (.misuse .noResult), σ)
    | .pair _ form rest =>
      match Instruction.decode form with
      | .ok i => do
        match ← evalInstruction host (fun env code σ => evalBlock host depth env [] code σ) env
            operands i σ with
        | (.ok operands, σ) => evalBlock host depth env operands rest σ
        | (.error e, σ) => some (.error e, σ)
      | .error e => some (.error e, σ)
    | v => some (.error (.malformed .notList v), σ)

/-- The evaluation of branches and bodies up to a depth: they start without operands. -/
def evalBody (host : Host) (depth : Nat) : BlockEvaluator :=
  fun env code σ => evalBlock host depth env [] code σ

variable {host : Host} {m n : Nat} {env operands : List Value} {σ : Store}

/-- An instruction is evaluated, and if it does not fail, the rest of the block. -/
theorem evalBlock_pair_iff {id : Nat} {form rest : Value} {i : Instruction}
    {r : Except Error Value × Store} (hi : Instruction.decode form = .ok i) :
    evalBlock host (n + 1) env operands (.pair id form rest) σ = some r ↔
      (∃ operands' σ₁,
        evalInstruction host (evalBody host n) env operands i σ = some (.ok operands', σ₁) ∧
          evalBlock host n env operands' rest σ₁ = some r) ∨
        ∃ e σ₁, evalInstruction host (evalBody host n) env operands i σ = some (.error e, σ₁) ∧
          r = (.error e, σ₁) := by
  rw [evalBlock]
  simp only [hi]
  change Option.bind (evalInstruction host (evalBody host n) env operands i σ) _ = _ ↔ _
  rw [Option.bind_eq_some_iff]
  constructor
  · rintro ⟨⟨e | operands', σ₁⟩, hfirst, h⟩
    · cases h
      exact .inr ⟨e, σ₁, hfirst, rfl⟩
    · exact .inl ⟨operands', σ₁, hfirst, h⟩
  · rintro (⟨operands', σ₁, hfirst, h⟩ | ⟨e, σ₁, hfirst, rfl⟩)
    · exact ⟨_, hfirst, h⟩
    · exact ⟨_, hfirst, rfl⟩

/-! ### More depth -/

/-- One evaluation of branches and bodies comes out as another, where the other comes
    out with something. -/
def BlockEvaluator.Extends (block' block : BlockEvaluator) : Prop :=
  ∀ env code σ r, block env code σ = some r → block' env code σ = some r

variable {block block' : BlockEvaluator}

theorem evalCall_extends (hle : block'.Extends block) {f : Value} {args : List Value}
    {r : Except Error Value × Store} (h : evalCall host block f args σ = some r) :
    evalCall host block' f args σ = some r := by
  fun_induction evalCall host block f args σ with
  | case1 => exact h
  | case2 f args σ ih => exact ih h
  | case3 id arity hasRest code captured args σ env next hb =>
    simp only [evalCall, hb]
    exact hle _ _ _ _ h
  | case4 id arity hasRest code captured args σ e hb =>
    simp only [evalCall, hb]
    exact h
  | case5 f args σ v next hv =>
    simp only [evalCall, hv]
    exact h
  | case6 f args σ e hv =>
    simp only [evalCall, hv]
    exact h
  | case7 f args σ =>
    rw [evalCall]
    · exact h
    all_goals assumption

theorem evalInstruction_extends (hle : block'.Extends block) {i : Instruction}
    {r : Except Error (List Value) × Store}
    (h : evalInstruction host block env operands i σ = some r) :
    evalInstruction host block' env operands i σ = some r := by
  cases i with
  | call count =>
    simp only [evalInstruction] at h ⊢
    cases hd : operands.drop count with
    | nil =>
      simp only [hd] at h ⊢
      exact h
    | cons f rest =>
      simp only [hd] at h ⊢
      obtain ⟨a, ha, hr⟩ := Option.bind_eq_some_iff.1 h
      exact Option.bind_eq_some_iff.2 ⟨a, evalCall_extends hle ha, hr⟩
  | branch thenCode elseCode =>
    cases operands with
    | nil => exact h
    | cons test rest =>
      obtain ⟨a, ha, hr⟩ := Option.bind_eq_some_iff.1 h
      exact Option.bind_eq_some_iff.2 ⟨a, hle _ _ _ _ ha, hr⟩
  | _ => exact h

/-- A greater depth does not change what an evaluation came out with. -/
theorem evalBlock_mono (hmn : m ≤ n) {code : Value} {r : Except Error Value × Store}
    (h : evalBlock host m env operands code σ = some r) :
    evalBlock host n env operands code σ = some r := by
  induction m generalizing n env operands code σ r with
  | zero => cases h
  | succ m ih =>
    obtain ⟨n, rfl⟩ : ∃ k, n = k + 1 := ⟨n - 1, by omega⟩
    have hle : (evalBody host n).Extends (evalBody host m) := fun _ _ _ _ => ih (by omega)
    cases code with
    | pair id form rest =>
      cases hi : Instruction.decode form with
      | ok i =>
        rw [evalBlock_pair_iff hi] at h ⊢
        obtain ⟨operands', σ₁, hfirst, h⟩ | ⟨e, σ₁, hfirst, h⟩ := h
        · exact .inl ⟨operands', σ₁, evalInstruction_extends hle hfirst, ih (by omega) h⟩
        · exact .inr ⟨e, σ₁, evalInstruction_extends hle hfirst, h⟩
      | error e =>
        simp only [evalBlock, hi] at h ⊢
        exact h
    | _ => exact h

theorem evalBody_mono (hmn : m ≤ n) : (evalBody host n).Extends (evalBody host m) :=
  fun _ _ _ _ h => evalBlock_mono hmn h

end ConsMachine
