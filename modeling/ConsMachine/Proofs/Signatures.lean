import ConsMachine.Native.Slots

/-!
# Signatures

A typed native checks everything before its body runs, and in this order: the arity that was
declared for it, if it has a rest; the number of its arguments; the types of its parameters,
from left to right; and the types of the rest. `FixedAnswer` and `RestAnswer` say what comes
of a call in each of these cases. What the body then gets are the arguments themselves, one
for one: numbers, booleans and names where the parameters say so, and otherwise the values
that were passed.

The natives on slots are the same natives (`Native.fixed_eq_typed`,
`Native.withRest_eq_variadic`). So nothing is seen of values that other parameters took out,
and the iterator over a rest comes to every argument and knows at any time how many are left
(`RestIterator.Yields`).
-/

namespace ConsMachine

variable {t : ParamType} {ts : List ParamType} {v : Value} {vs args : List Value} {e : Error}
  {next : Nat} {r : Except Error (Value × Nat)}

/-! ### Types -/

namespace ParamType

/-- The kind of values that a type admits; a value may be of any kind. -/
def kind? : ParamType → Option Kind
  | value => none
  | number => some .number
  | boolean => some .boolean
  | symbol => some .symbol

/-- A value is of a type. -/
def Fits (t : ParamType) (v : Value) : Prop :=
  ∀ k, t.kind? = some k → v.kind = k

/-- A converted argument as the value that it was. -/
def toValue : (t : ParamType) → t.Carrier → Value
  | value, v => v
  | number, n => .number n
  | boolean, b => .bool b
  | symbol, name => .symbol name

theorem convert_toValue (t : ParamType) (a : t.Carrier) : t.convert (t.toValue a) = .ok a := by
  cases t <;> rfl

theorem convert_of_kind_ne {k : Kind} (hk : t.kind? = some k) (hv : v.kind ≠ k) :
    t.convert v = .error (.type (.argument k v)) := by
  cases t <;> cases hk <;> cases v <;> first | rfl | exact absurd rfl hv

theorem fits_toValue (t : ParamType) (a : t.Carrier) : t.Fits (t.toValue a) := by
  cases t <;> rintro k ⟨⟩ <;> rfl

/-- A value fits and is something converted, or it is of another kind than it should be. -/
theorem exists_toValue_or (t : ParamType) (v : Value) :
    (∃ a, t.toValue a = v) ∨ ∃ k, t.kind? = some k ∧ v.kind ≠ k := by
  cases t with
  | value => exact .inl ⟨v, rfl⟩
  | number | boolean | symbol =>
    cases v <;> first | exact .inl ⟨_, rfl⟩ | exact .inr ⟨_, rfl, nofun⟩

theorem Fits.exists_toValue (h : t.Fits v) : ∃ a, t.toValue a = v :=
  (t.exists_toValue_or v).resolve_right fun ⟨k, hk, hv⟩ => hv (h k hk)

end ParamType

/-- The error for the first argument that does not fit its parameter. -/
inductive FirstMisfit : List ParamType → List Value → Error → Prop where
  | here {t : ParamType} {ts : List ParamType} {v : Value} {vs : List Value} {k : Kind}
      (hk : t.kind? = some k) (hv : v.kind ≠ k) :
      FirstMisfit (t :: ts) (v :: vs) (.type (.argument k v))
  | later {t : ParamType} {ts : List ParamType} {v : Value} {vs : List Value} {e : Error}
      (hv : t.Fits v) (h : FirstMisfit ts vs e) : FirstMisfit (t :: ts) (v :: vs) e

/-! ### Parameters -/

namespace Arguments

/-- Converted arguments as the values that they were. -/
def toValues : (ts : List ParamType) → Arguments ts → List Value
  | [], _ => []
  | t :: ts, (a, as) => t.toValue a :: toValues ts as

/-- Arguments that fit are taken as what they are, and those behind them are left. -/
theorem take_toValues_append {as : Arguments ts} {others : List Value}
    (hvs : toValues ts as ++ others = vs) (h : ts.length ≤ vs.length) :
    take ts vs h = .ok (as, others) := by
  subst hvs
  induction ts with
  | nil => rfl
  | cons t ts ih =>
    obtain ⟨a, as⟩ := as
    simp only [toValues, List.cons_append, take, t.convert_toValue, ih]
    rfl

theorem take_of_firstMisfit (hmisfit : FirstMisfit ts vs e) (h : ts.length ≤ vs.length) :
    take ts vs h = .error e := by
  induction hmisfit with
  | here hk hv =>
    rw [take, ParamType.convert_of_kind_ne hk hv]
    rfl
  | later hv _ ih =>
    obtain ⟨a, rfl⟩ := hv.exists_toValue
    rw [take, ParamType.convert_toValue, ih]
    rfl

/-- Where there are enough arguments, they fit, or one of them is the first that does not. -/
theorem exists_toValues_or_firstMisfit (h : ts.length ≤ vs.length) :
    (∃ as others, toValues ts as ++ others = vs) ∨ ∃ e, FirstMisfit ts vs e := by
  induction ts generalizing vs with
  | nil => exact .inl ⟨(), vs, rfl⟩
  | cons t ts ih =>
    cases vs with
    | nil => simp at h
    | cons v vs =>
      obtain ⟨a, rfl⟩ | ⟨k, hk, hv⟩ := t.exists_toValue_or v
      · obtain ⟨as, others, rfl⟩ | ⟨e, he⟩ := ih (Nat.le_of_succ_le_succ h)
        · exact .inl ⟨(a, as), others, rfl⟩
        · exact .inr ⟨e, .later (t.fits_toValue a) he⟩
      · exact .inr ⟨_, .here hk hv⟩

theorem length_toValues (as : Arguments ts) : (toValues ts as).length = ts.length := by
  induction ts with
  | nil => rfl
  | cons t ts ih => exact congrArg (· + 1) (ih as.2)

/-- Where arguments fit, there are enough of them. -/
theorem length_le {as : Arguments ts} {others : List Value}
    (hvs : toValues ts as ++ others = vs) : ts.length ≤ vs.length := by
  rw [← hvs, List.length_append, as.length_toValues]
  exact Nat.le_add_right _ _

end Arguments

/-! ### The rest -/

theorem convertRest_map_toValue (t : ParamType) (items : List t.Carrier) :
    convertRest t (items.map t.toValue) = .ok items := by
  induction items with
  | nil => rfl
  | cons a items ih =>
    rw [List.map_cons, convertRest, t.convert_toValue, ih]
    rfl

theorem convertRest_of_firstMisfit (h : FirstMisfit (.replicate vs.length t) vs e) :
    convertRest t vs = .error e := by
  induction vs with
  | nil => cases h
  | cons v vs ih =>
    cases h with
    | here hk hv =>
      rw [convertRest, ParamType.convert_of_kind_ne hk hv]
      rfl
    | later hv h =>
      obtain ⟨a, rfl⟩ := hv.exists_toValue
      rw [convertRest, t.convert_toValue, ih h]
      rfl

theorem exists_map_toValue_or_firstMisfit (t : ParamType) (vs : List Value) :
    (∃ items : List t.Carrier, items.map t.toValue = vs) ∨
      ∃ e, FirstMisfit (.replicate vs.length t) vs e := by
  induction vs with
  | nil => exact .inl ⟨[], rfl⟩
  | cons v vs ih =>
    obtain ⟨a, rfl⟩ | ⟨k, hk, hv⟩ := t.exists_toValue_or v
    · obtain ⟨items, rfl⟩ | ⟨e, he⟩ := ih
      · exact .inl ⟨a :: items, rfl⟩
      · exact .inr ⟨e, .later (t.fits_toValue a) he⟩
    · exact .inr ⟨_, .here hk hv⟩

/-! ### The declared arity -/

/-- The error for a number of arguments that an arity does not admit. -/
inductive Arity.Rejects : Arity → Nat → Error → Prop where
  | exactly {n got : Nat} (h : got ≠ n) : Rejects (.exactly n) got (.arity n got false)
  | atLeast {n got : Nat} (h : got < n) : Rejects (.atLeast n) got (.arity n got true)

/-- An arity admits a number of arguments. -/
def Arity.Admits (declared : Arity) (got : Nat) : Prop :=
  ∀ e, ¬declared.Rejects got e

theorem Arity.Rejects.check_eq {declared : Arity} {got : Nat} (h : declared.Rejects got e) :
    declared.check got = .error e := by
  cases h with
  | exactly h => exact if_neg h
  | atLeast h => exact if_pos h

theorem Arity.Admits.check_eq {declared : Arity} {got : Nat} (h : declared.Admits got) :
    declared.check got = .ok () := by
  cases declared with
  | exactly n =>
    have heq : got = n := Classical.not_not.1 fun hne => h _ (.exactly hne)
    exact if_pos heq
  | atLeast n =>
    have hle : ¬got < n := fun hlt => h _ (.atLeast hlt)
    exact if_neg hle
  | any => rfl

/-! ### Calls -/

namespace Alloc

variable {α α' β : Type}

/-- What goes on behind a check that succeeds. -/
@[simp] theorem liftM_ok_bind (a : α) (g : α → Alloc β) :
    (liftM (Except.ok a : Except Error α) >>= g : Alloc β) = g a := rfl

/-- Nothing goes on behind a check that fails. -/
@[simp] theorem liftM_error_bind (e : Error) (g : α → Alloc β) (next : Nat) :
    (liftM (Except.error e : Except Error α) >>= g : Alloc β) next = .error e := rfl

theorem liftM_map_bind (x : Except Error α) (f : α → α') (g : α' → Alloc β) :
    (liftM (x.map f) >>= g : Alloc β) = liftM x >>= fun a => g (f a) := by
  cases x <;> rfl

end Alloc

/-- What comes of a call of a native with parameters. -/
inductive FixedAnswer (ts : List ParamType) (body : Arguments ts → Alloc Value)
    (args : List Value) (next : Nat) : Except Error (Value × Nat) → Prop where
  | count (hcount : args.length ≠ ts.length) :
      FixedAnswer ts body args next (.error (.arity ts.length args.length false))
  | parameter {e : Error} (hcount : args.length = ts.length) (he : FirstMisfit ts args e) :
      FixedAnswer ts body args next (.error e)
  | body {as : Arguments ts} (has : as.toValues = args) :
      FixedAnswer ts body args next (body as next)

/-- What comes of a call of a native with parameters and a rest. -/
inductive RestAnswer (declared : Arity) (ts : List ParamType) (t : ParamType)
    (body : Arguments ts → List t.Carrier → Alloc Value) (args : List Value) (next : Nat) :
    Except Error (Value × Nat) → Prop where
  | declared {e : Error} (he : declared.Rejects args.length e) :
      RestAnswer declared ts t body args next (.error e)
  | count (hdeclared : declared.Admits args.length) (hcount : args.length < ts.length) :
      RestAnswer declared ts t body args next (.error (.arity ts.length args.length true))
  | parameter {e : Error} (hdeclared : declared.Admits args.length)
      (hcount : ts.length ≤ args.length) (he : FirstMisfit ts args e) :
      RestAnswer declared ts t body args next (.error e)
  | rest {e : Error} {as : Arguments ts} {others : List Value}
      (hdeclared : declared.Admits args.length) (has : as.toValues ++ others = args)
      (he : FirstMisfit (.replicate others.length t) others e) :
      RestAnswer declared ts t body args next (.error e)
  | body {as : Arguments ts} {items : List t.Carrier}
      (hdeclared : declared.Admits args.length)
      (has : as.toValues ++ items.map t.toValue = args) :
      RestAnswer declared ts t body args next (body as items next)

namespace Native

theorem fixedAnswer_typed (body : Arguments ts → Alloc Value) (args : List Value) (next : Nat) :
    FixedAnswer ts body args next (typed ts body args next) := by
  by_cases hcount : args.length = ts.length
  · obtain ⟨as, others, hvs⟩ | ⟨e, he⟩ :=
      Arguments.exists_toValues_or_firstMisfit (Nat.le_of_eq hcount.symm)
    · have hothers : others = [] := by
        have hlength := congrArg List.length hvs
        rw [List.length_append, as.length_toValues] at hlength
        exact List.eq_nil_of_length_eq_zero (by omega)
      rw [typed, dif_pos hcount, Arguments.take_toValues_append hvs]
      exact .body (by rw [← hvs, hothers, List.append_nil])
    · rw [typed, dif_pos hcount, Arguments.take_of_firstMisfit he]
      exact .parameter hcount he
  · rw [typed, dif_neg hcount]
    exact .count hcount

theorem typed_of_fixedAnswer {body : Arguments ts → Alloc Value}
    (h : FixedAnswer ts body args next r) : typed ts body args next = r := by
  cases h with
  | count hcount =>
    rw [typed, dif_neg hcount]
    rfl
  | parameter hcount he =>
    rw [typed, dif_pos hcount, Arguments.take_of_firstMisfit he]
    rfl
  | @body as has =>
    have hcount : args.length = ts.length := by rw [← has, as.length_toValues]
    have hvs : as.toValues ++ [] = args := by rw [List.append_nil, has]
    rw [typed, dif_pos hcount, Arguments.take_toValues_append hvs]
    rfl

theorem restAnswer_variadic (declared : Arity)
    (body : Arguments ts → List t.Carrier → Alloc Value) (args : List Value) (next : Nat) :
    RestAnswer declared ts t body args next (variadic declared ts t body args next) := by
  by_cases hdeclared : declared.Admits args.length
  · rw [variadic, hdeclared.check_eq]
    by_cases hcount : ts.length ≤ args.length
    · obtain ⟨as, others, hvs⟩ | ⟨e, he⟩ := Arguments.exists_toValues_or_firstMisfit hcount
      · rw [dif_pos hcount, Arguments.take_toValues_append hvs]
        obtain ⟨items, rfl⟩ | ⟨e, he⟩ := exists_map_toValue_or_firstMisfit t others
        · simp only [Alloc.liftM_ok_bind, convertRest_map_toValue]
          exact .body hdeclared hvs
        · simp only [Alloc.liftM_ok_bind, convertRest_of_firstMisfit he]
          exact .rest hdeclared hvs he
      · rw [dif_pos hcount, Arguments.take_of_firstMisfit he]
        exact .parameter hdeclared hcount he
    · rw [dif_neg hcount]
      exact .count hdeclared (Nat.lt_of_not_le hcount)
  · obtain ⟨e, he⟩ : ∃ e, declared.Rejects args.length e := by
      simpa [Arity.Admits] using hdeclared
    rw [variadic, he.check_eq]
    exact .declared he

theorem variadic_of_restAnswer {declared : Arity}
    {body : Arguments ts → List t.Carrier → Alloc Value}
    (h : RestAnswer declared ts t body args next r) :
    variadic declared ts t body args next = r := by
  cases h with
  | declared he =>
    rw [variadic, he.check_eq]
    rfl
  | count hdeclared hcount =>
    rw [variadic, hdeclared.check_eq, dif_neg (Nat.not_le_of_lt hcount)]
    rfl
  | parameter hdeclared hcount he =>
    rw [variadic, hdeclared.check_eq, dif_pos hcount, Arguments.take_of_firstMisfit he]
    rfl
  | rest hdeclared has he =>
    rw [variadic, hdeclared.check_eq, dif_pos (Arguments.length_le has),
      Arguments.take_toValues_append has]
    simp only [Alloc.liftM_ok_bind, convertRest_of_firstMisfit he]
    rfl
  | body hdeclared has =>
    rw [variadic, hdeclared.check_eq, dif_pos (Arguments.length_le has),
      Arguments.take_toValues_append has]
    simp only [Alloc.liftM_ok_bind, convertRest_map_toValue]

end Native

/-! ### Slots -/

/-- What a parameter holds is seen as its argument, whatever is left in the slot. -/
theorem Parameter.map_look_hold (p : Parameter) (v : Value) :
    (p.hold v).map (fun held => held.1.look held.2) = p.type.convert v := by
  cases p <;> cases v <;> rfl

theorem Holdings.map_look_take {ps : List Parameter} {slots : List Value}
    (h : ps.length ≤ slots.length) (h' : (ps.map Parameter.type).length ≤ slots.length) :
    (take ps slots h).map (fun held => (look ps held.1, held.2)) =
      Arguments.take (ps.map Parameter.type) slots h' := by
  induction ps generalizing slots with
  | nil => rfl
  | cons p ps ih =>
    cases slots with
    | nil => simp at h
    | cons v slots =>
      have hhold := p.map_look_hold v
      have htake := ih (Nat.le_of_succ_le_succ h) (Nat.le_of_succ_le_succ h')
      have hcons : Arguments.take ((p :: ps).map Parameter.type) (v :: slots) h' =
          p.type.convert v >>= fun a =>
            Arguments.take (ps.map Parameter.type) slots (Nat.le_of_succ_le_succ h') >>= fun r =>
              .ok ((a, r.1), r.2) := rfl
      rw [hcons, ← hhold, ← htake, take]
      cases p.hold v with
      | error e => rfl
      | ok held => cases take ps slots (Nat.le_of_succ_le_succ h) <;> rfl

namespace RestIterator

/-- The iterator over converted arguments. -/
def ofItems (items : List t.Carrier) : RestIterator t :=
  ⟨items.map t.toValue⟩

/-- An iterator comes to these items in their order, and knows at any time how many are left.
    When none is left, it stays so. -/
def Yields : RestIterator t → List t.Carrier → Prop
  | it, [] => it.length = 0 ∧ it.next = (none, it)
  | it, a :: items =>
    it.length = items.length + 1 ∧ ∃ rest : RestIterator t,
      it.next = (some a, rest) ∧ rest.Yields items

theorem ofItems_yields (items : List t.Carrier) : (ofItems items).Yields items := by
  induction items with
  | nil => exact ⟨rfl, rfl⟩
  | cons a items ih =>
    refine ⟨List.length_map .., ofItems items, ?_, ih⟩
    simp only [next, ofItems, List.map_cons, t.convert_toValue]
    rfl

theorem ofSlots_eq_map_convertRest (t : ParamType) (slots : List Value) :
    ofSlots t slots = (convertRest t slots).map ofItems := by
  have hcheck : check t slots = (convertRest t slots).map fun _ => () := by
    induction slots with
    | nil => rfl
    | cons v slots ih =>
      rw [check, convertRest, ih]
      cases t.convert v <;> cases convertRest t slots <;> rfl
  obtain ⟨items, rfl⟩ | ⟨e, he⟩ := exists_map_toValue_or_firstMisfit t slots
  · rw [ofSlots, hcheck, convertRest_map_toValue]
    rfl
  · rw [ofSlots, hcheck, convertRest_of_firstMisfit he]
    rfl

end RestIterator

namespace Native

theorem fixed_eq_typed (ps : List Parameter)
    (body : Arguments (ps.map Parameter.type) → Alloc Value) :
    fixed ps body = typed (ps.map Parameter.type) body := by
  funext args
  simp only [fixed, typed, List.length_map]
  split
  · rename_i h
    rw [← Holdings.map_look_take (Nat.le_of_eq h.symm), Alloc.liftM_map_bind]
  · rfl

theorem withRest_eq_variadic (declared : Arity) (ps : List Parameter) (t : ParamType)
    (body : Arguments (ps.map Parameter.type) → RestIterator t → Alloc Value) :
    withRest declared ps t body =
      variadic declared (ps.map Parameter.type) t fun as items => body as (.ofItems items) := by
  funext args
  simp only [withRest, variadic, List.length_map]
  congr 1
  funext _
  split
  · rename_i h
    simp only [← Holdings.map_look_take h, RestIterator.ofSlots_eq_map_convertRest,
      Alloc.liftM_map_bind]
  · rfl

/-- A typed native checks everything in its order before the body runs, and the body gets
    exactly the arguments.

    * Without a rest, the number of arguments comes first, and then the first argument that
      does not fit its parameter.
    * With a rest, it is the declared arity, the number of parameters, the first argument that
      does not fit its parameter, and the first of the rest that does not fit.
    * On slots it is the same, with the values that are taken out and those that are looked at.
    * The iterator over a rest comes to each of its arguments, with their number. -/
theorem calls_in_order :
    (∀ (ts : List ParamType) (body : Arguments ts → Alloc Value) (args : List Value)
        (next : Nat) (r : Except Error (Value × Nat)),
      typed ts body args next = r ↔ FixedAnswer ts body args next r) ∧
    (∀ (declared : Arity) (ts : List ParamType) (t : ParamType)
        (body : Arguments ts → List t.Carrier → Alloc Value) (args : List Value) (next : Nat)
        (r : Except Error (Value × Nat)),
      variadic declared ts t body args next = r ↔
        RestAnswer declared ts t body args next r) ∧
    (∀ (ps : List Parameter) (body : Arguments (ps.map Parameter.type) → Alloc Value),
      fixed ps body = typed (ps.map Parameter.type) body) ∧
    (∀ (declared : Arity) (ps : List Parameter) (t : ParamType)
        (body : Arguments (ps.map Parameter.type) → RestIterator t → Alloc Value),
      withRest declared ps t body =
        variadic declared (ps.map Parameter.type) t fun as items => body as (.ofItems items)) ∧
    ∀ (t : ParamType) (items : List t.Carrier), (RestIterator.ofItems items).Yields items := by
  refine ⟨fun ts body args next r => ⟨?_, typed_of_fixedAnswer⟩,
    fun declared ts t body args next r => ⟨?_, variadic_of_restAnswer⟩,
    fixed_eq_typed, withRest_eq_variadic, fun t items => RestIterator.ofItems_yields items⟩
  · rintro rfl
    exact fixedAnswer_typed body args next
  · rintro rfl
    exact restAnswer_variadic declared body args next

/-- The arity that was declared, the parameters and the rest may all be wrong at once. -/
example :
    let f := withRest (.atLeast 3) [.owned, .number] .boolean fun (v, _) _ => pure v
    let refused (args : List Value) : Option Error :=
      match f args 0 with
      | .ok _ => none
      | .error e => some e
    refused [.nil] = some (.arity 3 1 true) ∧
      refused [.nil, .bool true, .number 1] = some (.type (.argument .number (.bool true))) ∧
      refused [.nil, .number 1, .bool true, .nil, .number 1] =
        some (.type (.argument .boolean .nil)) ∧
      refused [.nil, .number 1, .bool true] = none :=
  ⟨rfl, rfl, rfl, rfl⟩

end Native

end ConsMachine
