import ConsMachine.Native.Catalogue
import ConsMachine.Proofs.Identity

/-!
# The objects of the catalogue

The natives of the catalogue make objects as the machine does, and capture nothing
(`Catalogue.local_find?`). Most of them return atoms; the others return an argument, or
pairs around some arguments.
-/

namespace ConsMachine

variable {captured : List Value} {name : String} {f : Native}

/-! ### Natives that return atoms -/

/-- A computation that makes no objects, and returns an atom if anything. -/
def Alloc.Atomic (a : Alloc Value) : Prop :=
  ∀ next v next', a next = .ok (v, next') → v.key? = none ∧ next' = next

namespace Alloc.Atomic

theorem pure {v : Value} (hv : v.key? = none) : Atomic (pure v) := by
  rintro next _ _ ⟨⟩
  exact ⟨hv, rfl⟩

theorem throw (e : Error) : Atomic (throw e) := by
  rintro next _ _ ⟨⟩

theorem ite {c : Prop} [Decidable c] {a b : Alloc Value} (ha : a.Atomic) (hb : b.Atomic) :
    Atomic (if c then a else b) := by
  split
  · exact ha
  · exact hb

theorem orOverflow {o : Option Int64} {g : Int64 → Alloc Value} (h : ∀ n, Atomic (g n)) :
    Atomic (Catalogue.orOverflow o >>= g) := by
  cases o with
  | none => exact throw _
  | some n => exact h n

theorem madeOf {a : Alloc Value} (h : a.Atomic) {known : List Value} {next next' : Nat}
    {v : Value} (hv : a next = .ok (v, next')) : MadeOf known next next' v := by
  obtain ⟨hatom, rfl⟩ := h next v next' hv
  exact .atom hatom

end Alloc.Atomic

/-! ### Natives with a rest -/

theorem MadeOf.ofList {known vs : List Value} (h : ∀ v ∈ vs, Known known v) (next : Nat) :
    MadeOf known next (Value.ofList vs .nil next).2 (Value.ofList vs .nil next).1 := by
  induction vs with
  | nil => exact .atom rfl
  | cons v vs ih =>
    rw [List.forall_mem_cons] at h
    exact .cons h.1 (ih h.2)

theorem MadeOf.list {known vs : List Value} {v : Value} {next next' : Nat}
    (h : ∀ v ∈ vs, Known known v) (hv : Alloc.list vs next = .ok (v, next')) :
    MadeOf known next next' v := by
  have hlist : Value.ofList vs .nil next = (v, next') := Except.ok.inj hv
  have hmade := ofList h next
  rwa [hlist] at hmade

/-- The values among the converted arguments of a rest parameter. -/
def ParamType.values : (t : ParamType) → List t.Carrier → List Value
  | .value, vs => vs
  | _, _ => []

theorem ParamType.values_subset {t : ParamType} {vs : List Value} {as : List t.Carrier}
    (h : convertRest t vs = .ok as) : t.values as ⊆ vs := by
  cases t with
  | value =>
    induction vs generalizing as with
    | nil => cases h; exact List.nil_subset _
    | cons v vs ih =>
      cases hr : convertRest .value vs with
      | error e =>
        simp only [convertRest, convert, hr] at h
        cases h
      | ok r =>
        simp only [convertRest, convert, hr] at h
        cases h
        exact List.cons_subset_cons v (ih hr)
  | _ => exact List.nil_subset _

/-- What is left over for a rest are arguments. -/
theorem Arguments.rest_subset {ts : List ParamType} {vs rest : List Value}
    {hle : ts.length ≤ vs.length} {as : Arguments ts}
    (h : Arguments.take ts vs hle = .ok (as, rest)) : rest ⊆ vs := by
  fun_induction Arguments.take ts vs hle with
  | case1 => cases h; exact List.Subset.refl _
  | case2 t ts v vs hle ih =>
    cases ha : t.convert v with
    | error e => rw [ha] at h; cases h
    | ok a =>
      cases hr : Arguments.take ts vs (Nat.le_of_succ_le_succ hle) with
      | error e => rw [ha, hr] at h; cases h
      | ok r =>
        rw [ha, hr] at h
        cases h
        exact List.subset_cons_of_subset v (ih hr)

/-- What goes on behind a check or a conversion goes on behind its success. -/
theorem Alloc.exists_of_lift_bind {α β : Type} {x : Except Error α} {g : α → Alloc β}
    {next : Nat} {r : β × Nat} (h : (liftM x >>= g : Alloc β) next = .ok r) :
    ∃ a, x = .ok a ∧ g a next = .ok r := by
  cases x with
  | ok a => exact ⟨a, rfl, h⟩
  | error e => cases h

/-- A native with a rest is its body, on the arguments it converted. -/
theorem Native.variadic_eq_ok {declared : Arity} {ts : List ParamType} {t : ParamType}
    {body : Arguments ts → List t.Carrier → Alloc Value} {args : List Value} {next : Nat}
    {r : Value × Nat} (h : Native.variadic declared ts t body args next = .ok r) :
    ∃ as others rest hle, Arguments.take ts args hle = .ok (as, others) ∧
      convertRest t others = .ok rest ∧ body as rest next = .ok r := by
  obtain ⟨_, _, h⟩ := Alloc.exists_of_lift_bind h
  split at h
  · rename_i hle
    obtain ⟨taken, ht, h⟩ := Alloc.exists_of_lift_bind h
    obtain ⟨rest, hr, h⟩ := Alloc.exists_of_lift_bind h
    exact ⟨taken.1, taken.2, rest, hle, ht, hr, h⟩
  · cases h

/-- A native with a rest makes its values of the converted arguments. -/
theorem Native.Local.variadic {declared : Arity} {ts : List ParamType} {t : ParamType}
    {body : Arguments ts → List t.Carrier → Alloc Value}
    (h : ∀ as rest next v next', body as rest next = .ok (v, next') →
      MadeOf (Arguments.values ts as ++ t.values rest) next next' v) :
    (Native.variadic declared ts t body).Local captured := by
  intro args next v next' hv
  obtain ⟨as, others, rest, hle, ht, hr, hbody⟩ := Native.variadic_eq_ok hv
  have hothers : t.values rest ⊆ args := fun u hu =>
    Arguments.rest_subset ht (ParamType.values_subset hr hu)
  refine (h as rest next v next' hbody).mono (List.append_subset.2 ⟨?_, ?_⟩)
  · exact List.subset_append_of_subset_left _ (Arguments.values_subset ht)
  · exact List.subset_append_of_subset_left _ hothers

/-! ### The catalogue -/

namespace Catalogue

theorem local_fixed? (h : fixed? name = some f) : f.Local captured := by
  unfold fixed? at h
  split at h <;> cases h
  all_goals refine .typed fun as next v next' hv => ?_
  case h_8 =>
    -- The argument as it is.
    cases hv
    exact .of_known (.of_mem List.mem_cons_self)
  case h_14 =>
    obtain ⟨b, name, x, y, ⟨⟩⟩ := as
    have hx : Known [x, y] x := .of_mem List.mem_cons_self
    have hy : Known [x, y] y := .of_mem (List.mem_cons_of_mem x List.mem_cons_self)
    cases b with
    | true => cases hv; exact .cons (.inl rfl) (.of_known hx)
    | false => cases hv; exact .of_known hy
  all_goals first
    | exact Alloc.Atomic.madeOf (.pure rfl) hv
    | exact Alloc.Atomic.madeOf (.throw _) hv
    | exact Alloc.Atomic.madeOf (.orOverflow fun _ => .pure rfl) hv
    | exact Alloc.Atomic.madeOf (.ite (.pure rfl) (.throw _)) hv
    | exact Alloc.Atomic.madeOf (.ite (.throw _) (.pure rfl)) hv

theorem local_variadic? {declared : Arity} (h : variadic? declared name = some f) :
    f.Local captured := by
  unfold variadic? at h
  split at h <;> cases h
  all_goals refine .variadic fun as rest next v next' hv => ?_
  case h_1 => exact .list (fun u hu => .of_mem hu) hv
  case h_7 =>
    obtain ⟨name, x, ⟨⟩⟩ := as
    refine .list (fun u hu => ?_) hv
    rcases List.mem_cons.1 hu with rfl | hu
    · exact .inl rfl
    · exact .of_mem hu
  all_goals first
    | exact Alloc.Atomic.madeOf (.pure rfl) hv
    | exact Alloc.Atomic.madeOf (.orOverflow fun _ => .pure rfl) hv
    | exact Alloc.Atomic.madeOf
        (.orOverflow fun _ => .orOverflow fun _ => .orOverflow fun _ => .pure rfl) hv

theorem local_raw? (h : raw? name = some f) : f.Local captured := by
  unfold raw? at h
  split at h <;> cases h
  all_goals intro args next v next' hv
  · exact Alloc.Atomic.madeOf (.pure rfl) hv
  · cases args with
    | nil => cases hv
    | cons u args =>
      cases hv
      exact .of_known (.of_mem List.mem_cons_self)

/-- The natives of the catalogue make objects as the machine does. -/
theorem local_find? {declared : Arity} (h : find? declared name = some f) :
    f.Local captured := by
  unfold find? at h
  cases hfixed : fixed? name with
  | some g =>
    rw [hfixed] at h
    cases h
    exact local_fixed? hfixed
  | none =>
    rw [hfixed] at h
    cases hvariadic : variadic? declared name with
    | some g =>
      rw [hvariadic] at h
      cases h
      exact local_variadic? hvariadic
    | none =>
      rw [hvariadic] at h
      exact local_raw? h

end Catalogue

end ConsMachine
