import ConsMachine.Value.Basic

/-!
# Two equalities

`Value.same` is the equality that programs see (`eq?`): atoms by value, natives
by function, and pairs, closures and continuations by identity, so that two
pairs made apart are never the same, whatever they hold.

`Value.equal` looks into pairs: two pairs are equal when their halves are, and
anything else when it is the same. It works through a list of pending
comparisons, so it does not mind how deep the pairs nest, and it passes over two
pairs that are one object. `Value.Equal` says the same by recursion on the pairs.
-/

namespace ConsMachine

namespace Value

/-- Equality by value for atoms, by identity for objects. -/
def same : Value → Value → Bool
  | nil, nil => true
  | bool a, bool b => a == b
  | number a, number b => a == b
  | symbol a, symbol b => a == b
  | pair i _ _, pair j _ _ => i == j
  | native f, native g => f.same g
  | closure i .., closure j .. => i == j
  | continuation i .., continuation j .. => i == j
  | apply, apply => true
  | _, _ => false

/-- Work through the pending comparisons, and stop at the first that fails. -/
def equalAll : List (Value × Value) → Bool
  | [] => true
  | (pair i a b, pair j c d) :: pending =>
    if i == j then equalAll pending else equalAll ((a, c) :: (b, d) :: pending)
  | (v, w) :: pending => v.same w && equalAll pending
termination_by pending => pending.foldr (fun p n => p.1.size + n) 0
decreasing_by
  all_goals
    simp only [List.foldr_cons, size]
    have := size_pos
    grind

/-- Equality of contents: pairs by their halves, everything else as `same`. -/
def equal (v w : Value) : Bool :=
  equalAll [(v, w)]

/-- Equality of contents, by recursion on the pairs. -/
def Equal : Value → Value → Prop
  | pair _ a b, pair _ c d => a.Equal c ∧ b.Equal d
  | v, w => v.same w = true

@[simp] theorem same_self (v : Value) : v.same v = true := by
  cases v <;> simp [same]

theorem same_comm (v w : Value) : v.same w = w.same v := by
  cases v <;> cases w <;> simp only [same, BEq.comm]
  rename_i f g
  cases f <;> cases g <;> simp only [NativeRef.same, BEq.comm]

end Value

end ConsMachine
