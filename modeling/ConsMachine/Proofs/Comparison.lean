import Mathlib.Algebra.GroupWithZero.Nat
import ConsMachine.Proofs.Worlds

/-!
# Comparison of contents

`Value.equal` compares two values by a list of comparisons that are still pending. Each
turn settles the first of them or puts those of the halves in its place (`Value.turn`),
so there are at most as many turns as one of the two values has pairs and atoms, and one
more for the answer (`Value.exists_answers`).

The answer is that of the recursion on the pairs, if the two values agree on the pairs
that they share: then nothing is lost where the work list passes over two pairs that are
one object (`Value.equal_iff_of_agree`). All values of a world agree
(`World.Reachable.agree`), as an identity is given out once.

Equality of contents is an equivalence that is coarser than sameness, and two pairs that
were made apart are equal exactly if their halves are (`Value.equal_is_structural`).
-/

namespace ConsMachine

theorem NativeRef.same_trans {f g h : NativeRef} (hfg : f.same g = true)
    (hgh : g.same h = true) : f.same h = true := by
  cases f <;> cases g <;> cases h <;> simp_all [NativeRef.same]

namespace Value

variable {u v w : Value}

/-! ### Turns -/

/-- One turn of the work list: the comparisons that are pending after it, or the
    answer. -/
def turn : List (Value × Value) → List (Value × Value) ⊕ Bool
  | [] => .inr true
  | (pair i a b, pair j c d) :: pending =>
    .inl (if i == j then pending else (a, c) :: (b, d) :: pending)
  | (v, w) :: pending => if v.same w then .inl pending else .inr false

/-- The work list comes to an answer in some number of turns. -/
inductive Answers : Nat → List (Value × Value) → Bool → Prop
  | last {pending : List (Value × Value)} {b : Bool} :
      turn pending = .inr b → Answers 1 pending b
  | next {n : Nat} {pending pending' : List (Value × Value)} {b : Bool} :
      turn pending = .inl pending' → Answers n pending' b → Answers (n + 1) pending b

/-- Each turn but the last makes the pending values smaller, on both sides. -/
theorem exists_answers (pending : List (Value × Value)) :
    ∃ n, Answers n pending (equalAll pending) ∧
      n ≤ (pending.map (·.1.size)).sum + 1 ∧ n ≤ (pending.map (·.2.size)).sum + 1 := by
  fun_induction equalAll pending with
  | case1 => exact ⟨1, .last rfl, Nat.le_add_left 1 _, Nat.le_add_left 1 _⟩
  | case2 i a b j c d pending hij ih =>
    obtain ⟨n, hn, hleft, hright⟩ := ih
    refine ⟨n + 1, .next (by simp [turn, hij]) hn, ?_, ?_⟩ <;>
      simp only [List.map_cons, List.sum_cons, size] <;> omega
  | case3 i a b j c d pending hij ih =>
    obtain ⟨n, hn, hleft, hright⟩ := ih
    refine ⟨n + 1, .next (by simp [turn, hij]) hn, ?_, ?_⟩ <;>
      simp only [List.map_cons, List.sum_cons, size] at hleft hright ⊢ <;> omega
  | case4 v w pending hpair ih =>
    have hturn : turn ((v, w) :: pending) =
        if v.same w then .inl pending else .inr false := by
      rw [turn]
      rintro i a b j c d rfl rfl
      exact hpair i a b j c d rfl rfl
    have hv := v.size_pos
    have hw := w.size_pos
    cases hsame : v.same w with
    | true =>
      obtain ⟨n, hn, hleft, hright⟩ := ih
      refine ⟨n + 1, .next (by rw [hturn, hsame]; rfl) hn, ?_, ?_⟩ <;>
        simp only [List.map_cons, List.sum_cons] <;> omega
    | false =>
      exact ⟨1, .last (by rw [hturn, hsame]; rfl), Nat.le_add_left 1 _, Nat.le_add_left 1 _⟩

/-! ### Equality by recursion -/

/-- Unless both are pairs, values are equal if they are the same. -/
theorem Equal_iff_same (h : v.isPair = false ∨ w.isPair = false) :
    v.Equal w ↔ v.same w = true := by
  rw [Equal]
  rintro i a b j c d rfl rfl
  simp [isPair] at h

/-- Equality of contents, in one sentence. -/
theorem Equal_iff : v.Equal w ↔
    (∃ i a b j c d, v = pair i a b ∧ w = pair j c d ∧ a.Equal c ∧ b.Equal d) ∨
      (v.isPair = false ∨ w.isPair = false) ∧ v.same w = true := by
  by_cases h : v.isPair = false ∨ w.isPair = false
  · rw [Equal_iff_same h]
    constructor
    · exact fun hsame => .inr ⟨h, hsame⟩
    · rintro (⟨i, a, b, j, c, d, rfl, rfl, _⟩ | ⟨_, hsame⟩)
      · simp [isPair] at h
      · exact hsame
  · cases v with
    | pair i a b =>
      cases w with
      | pair j c d =>
        constructor
        · exact fun hequal => .inl ⟨i, a, b, j, c, d, rfl, rfl, hequal⟩
        · rintro (⟨_, _, _, _, _, _, ⟨⟩, ⟨⟩, hequal⟩ | ⟨hatom, _⟩)
          · exact hequal
          · exact absurd hatom h
      | _ => exact absurd (.inr rfl) h
    | _ => exact absurd (.inl rfl) h

theorem same_trans (huv : u.same v = true) (hvw : v.same w = true) : u.same w = true := by
  cases v <;> cases u <;> simp only [same, Bool.false_eq_true] at huv <;>
    cases w <;> simp_all [same]
  exact NativeRef.same_trans huv hvw

/-- Where the middle value is a pair, so are the others; where it is an atom, it is the same
    as they are. -/
theorem Equal.trans (huv : u.Equal v) (hvw : v.Equal w) : u.Equal w := by
  induction v generalizing u w with
  | pair j c d ihc ihd =>
    cases u with
    | pair i a b =>
      cases w with
      | pair k e f => exact ⟨ihc huv.1 hvw.1, ihd huv.2 hvw.2⟩
      | _ => simp [Equal, same] at hvw
    | _ => simp [Equal, same] at huv
  | _ =>
    rw [Equal_iff_same (.inr rfl)] at huv
    rw [Equal_iff_same (.inl rfl)] at hvw
    have hu : u.isPair = false := by
      cases u with
      | pair => simp [same] at huv
      | _ => rfl
    exact (Equal_iff_same (.inl hu)).2 (same_trans huv hvw)

/-! ### The answers of the work list -/

theorem equalAll_append (xs ys : List (Value × Value)) :
    equalAll (xs ++ ys) = (equalAll xs && equalAll ys) := by
  fun_induction equalAll xs with
  | case1 => rfl
  | case2 i a b j c d pending hij ih => rw [List.cons_append, equalAll, if_pos hij, ih]
  | case3 i a b j c d pending hij ih =>
    rw [List.cons_append, equalAll, if_neg hij]
    exact ih
  | case4 v w pending hpair ih =>
    rw [List.cons_append, equalAll, ih, Bool.and_assoc]
    rintro i a b j c d rfl rfl
    exact hpair i a b j c d rfl rfl

theorem equalAll_swap (pending : List (Value × Value)) :
    equalAll (pending.map Prod.swap) = equalAll pending := by
  fun_induction equalAll pending with
  | case1 => rw [List.map_nil, equalAll]
  | case2 i a b j c d pending hij ih =>
    have hji : (j == i) = true := by rwa [BEq.comm]
    rw [List.map_cons, Prod.swap_prod_mk, equalAll, if_pos hji, ih]
  | case3 i a b j c d pending hij ih =>
    have hji : ¬ (j == i) = true := by rwa [BEq.comm]
    rw [List.map_cons, Prod.swap_prod_mk, equalAll, if_neg hji]
    exact ih
  | case4 v w pending hpair ih =>
    rw [List.map_cons, Prod.swap_prod_mk, equalAll, ih, same_comm]
    rintro j c d i a b rfl rfl
    exact hpair i a b j c d rfl rfl

theorem equal_comm (v w : Value) : v.equal w = w.equal v :=
  equalAll_swap [(w, v)]

/-- Values that are the same are equal, whatever is in them. -/
theorem equal_of_same (h : v.same w = true) : v.equal w = true := by
  by_cases hpair : v.isPair = false ∨ w.isPair = false
  · exact Equal.equal ((Equal_iff_same hpair).2 h)
  · cases v with
    | pair i a b =>
      cases w with
      | pair j c d =>
        have hij : (i == j) = true := h
        rw [equal, equalAll, if_pos hij, equalAll]
      | _ => simp [isPair] at hpair
    | _ => simp [isPair] at hpair

/-- Two pairs that are not one object are equal if their halves are. -/
theorem equal_pair {i j : Nat} {a b c d : Value} (h : i ≠ j) :
    (pair i a b).equal (pair j c d) = (a.equal c && b.equal d) := by
  rw [equal, equalAll, if_neg (by simpa using h)]
  exact equalAll_append [(a, c)] [(b, d)]

theorem Agree.equal_trans (huv : Agree u v) (hvw : Agree v w) (h : u.equal v = true)
    (h' : v.equal w = true) : u.equal w = true :=
  (((equal_iff_of_agree huv).1 h).trans ((equal_iff_of_agree hvw).1 h')).equal

theorem occurs_of_mem_pairs {p : Value} (h : p ∈ v.pairs) : Occurs p v := by
  induction v with
  | pair i a b iha ihb =>
    simp only [pairs, List.mem_cons, List.mem_append] at h
    obtain rfl | h | h := h
    · exact .self _
    · exact .car (iha h)
    · exact .cdr (ihb h)
  | _ => cases h

end Value

/-- In a world, a pair is known by its identity. -/
theorem World.Reachable.agree {W : World} (hW : W.Reachable) {v w : Value} (hv : W.Has v)
    (hw : W.Has w) : v.Agree w := by
  obtain ⟨S, hS⟩ := hW.within
  intro id a b c d hp hq
  have hpS := hS.coherent.closed (hS.has hv) (Value.occurs_of_mem_pairs hp)
  have hqS := hS.coherent.closed (hS.has hw) (Value.occurs_of_mem_pairs hq)
  cases hS.coherent.eq_of_key hpS hqS rfl rfl
  exact ⟨rfl, rfl⟩

/-- Comparison of contents is structural equality:

    * the work list comes to its answer in at most as many turns as the smaller of the two
      values has pairs and atoms, and one more;
    * for values that agree on the pairs that they share, it answers whether they are equal
      by recursion: as pairs with equal halves, or, unless both are pairs, as the same;
    * it is reflexive, symmetric and transitive, and finds equal what is the same;
    * two pairs that were made apart are equal exactly if their halves are;
    * all values of a world agree on the pairs that they share. -/
theorem Value.equal_is_structural :
    (∀ v w : Value, ∃ n ≤ min v.size w.size + 1, Answers n [(v, w)] (v.equal w)) ∧
      (∀ v w : Value, v.Agree w → (v.equal w = true ↔ v.Equal w)) ∧
      (∀ v w : Value, v.Equal w ↔
        (∃ i a b j c d, v = pair i a b ∧ w = pair j c d ∧ a.Equal c ∧ b.Equal d) ∨
          (v.isPair = false ∨ w.isPair = false) ∧ v.same w = true) ∧
      (∀ v : Value, v.equal v = true) ∧
      (∀ v w : Value, v.equal w = w.equal v) ∧
      (∀ u v w : Value, u.Agree v → v.Agree w → u.equal v = true → v.equal w = true →
        u.equal w = true) ∧
      (∀ v w : Value, v.same w = true → v.equal w = true) ∧
      (∀ (a b c d p q : Value) (m n m' n' : Nat), Alloc.cons a b m = .ok (p, m') →
        Alloc.cons c d n = .ok (q, n') → m ≠ n →
          (p.equal q = true ↔ a.equal c = true ∧ b.equal d = true)) ∧
      ∀ (W : World) (v w : Value), W.Reachable → W.Has v → W.Has w → v.Agree w := by
  refine ⟨fun v w => ?_, fun v w => equal_iff_of_agree, fun v w => Equal_iff,
    fun v => equal_of_same v.same_self, equal_comm, fun u v w => Agree.equal_trans,
    fun v w => equal_of_same, ?_, fun W v w hW hv hw => hW.agree hv hw⟩
  · obtain ⟨n, hn, hleft, hright⟩ := exists_answers [(v, w)]
    simp only [List.map_cons, List.map_nil, List.sum_cons, List.sum_nil] at hleft hright
    exact ⟨n, by omega, hn⟩
  · rintro a b c d _ _ m n _ _ ⟨⟩ ⟨⟩ hmn
    rw [equal_pair hmn, Bool.and_eq_true]

/-- Two values that share a pair, and have others of their own: they are equal, not the
    same, and agree on what they share. -/
theorem Value.equal_shared :
    let shared : Value := .pair 0 (.number 1) .nil
    let v : Value := .pair 1 shared shared
    let w : Value := .pair 2 shared (.pair 3 (.number 1) .nil)
    v.Agree w ∧ v.equal w = true ∧ v.same w = false := by
  intro shared v w
  have hagree : v.Agree w := by
    intro id a b c d hp hq
    simp only [v, w, shared, pairs, List.cons_append, List.nil_append, List.append_nil,
      List.mem_cons, List.not_mem_nil, or_false, pair.injEq] at hp hq
    -- The one identity that is in both is that of the shared pair.
    grind
  obtain ⟨_, hequal, _⟩ := Value.equal_is_structural
  exact ⟨hagree, (hequal v w hagree).2 ⟨⟨rfl, rfl⟩, rfl, rfl⟩, rfl⟩

end ConsMachine
