import ConsMachine.Native.Builtin

/-!
# Globals

The table of globals of an engine: names bound to values, each name once, in
the order of the names. Names are ordered by their characters, which is also the
order of their bytes. The last value bound to a name is the one found.
-/

namespace ConsMachine

/-- Bind `name` in a list of bindings that is ordered by name. -/
def bindInOrder (name : String) (v : Value) : List (String × Value) → List (String × Value)
  | [] => [(name, v)]
  | (n, w) :: rest =>
    if name < n then (name, v) :: (n, w) :: rest
    else if name = n then (name, v) :: rest
    else (n, w) :: bindInOrder name v rest

theorem mem_bindInOrder {name : String} {v : Value} {l : List (String × Value)}
    {b : String × Value} (h : b ∈ bindInOrder name v l) : b = (name, v) ∨ b ∈ l := by
  fun_induction bindInOrder name v l <;> grind

/-- Binding keeps the order of the names, and every name single. -/
theorem bindInOrder_pairwise {name : String} {v : Value} {l : List (String × Value)}
    (h : l.Pairwise fun a b => a.1 < b.1) :
    (bindInOrder name v l).Pairwise fun a b => a.1 < b.1 := by
  fun_induction bindInOrder name v l with
  | case1 => simp
  | case2 n w rest hlt => grind [List.pairwise_cons]
  | case3 => grind [List.pairwise_cons]
  | case4 n w rest hlt hne ih =>
    rw [List.pairwise_cons] at h ⊢
    refine ⟨fun b hb => ?_, ih h.2⟩
    rcases mem_bindInOrder hb with rfl | hb
    · grind
    · exact h.1 b hb

/-- The value bound last is the one found; other names keep theirs. -/
theorem find?_bindInOrder (name other : String) (v : Value) (l : List (String × Value)) :
    ((bindInOrder name v l).find? fun b => b.1 = other) =
      if name = other then some (name, v) else l.find? fun b => b.1 = other := by
  fun_induction bindInOrder name v l <;> grind

/-- A table of globals. -/
structure Globals where
  /-- The bindings, in the order of their names. -/
  bindings : List (String × Value)
  inOrder : bindings.Pairwise fun a b => a.1 < b.1

namespace Globals

/-- The table that binds nothing, not even `apply`. -/
def empty : Globals := ⟨[], List.Pairwise.nil⟩

/-- The value of a global. -/
def find? (g : Globals) (name : String) : Option Value :=
  (g.bindings.find? fun b => b.1 = name).map Prod.snd

/-- The value of a global; it is an error if there is none. -/
def get (g : Globals) (name : String) : Except Error Value :=
  match g.find? name with
  | some v => .ok v
  | none => .error (.unbound name)

/-- Bind a global; what it was bound to before is lost. -/
def bind (g : Globals) (name : String) (v : Value) : Globals :=
  ⟨bindInOrder name v g.bindings, bindInOrder_pairwise g.inOrder⟩

@[simp] theorem find?_empty (name : String) : empty.find? name = none := rfl

theorem find?_bind (g : Globals) (name other : String) (v : Value) :
    (g.bind name v).find? other = if name = other then some v else g.find? other := by
  simp only [find?, bind, find?_bindInOrder]
  split <;> rfl

@[simp] theorem find?_bind_self (g : Globals) (name : String) (v : Value) :
    (g.bind name v).find? name = some v := by
  simp [find?_bind]

/-- A global that is got is the one found. -/
theorem get_eq_ok_iff {g : Globals} {name : String} {v : Value} :
    g.get name = .ok v ↔ g.find? name = some v := by
  unfold get
  split
  · rename_i h
    rw [h, Except.ok.injEq, Option.some.injEq]
  · rename_i h
    simp [h]

/-- The name of the apply marker. -/
def applyName : String := "apply"

/-- The table a new engine starts with: the apply marker and the built-in
    natives. -/
def initial : Globals :=
  Builtin.all.foldl (fun g op => g.bind op.name (.native (.builtin op)))
    (empty.bind applyName .apply)

/-- What holds of the apply marker and of the built-in natives holds of all that an
    engine starts with. -/
theorem forall_initial {P : Value → Prop} (happly : P .apply)
    (hbuiltin : ∀ op, P (.native (.builtin op))) {name : String} {v : Value}
    (h : initial.find? name = some v) : P v := by
  -- The table is built by binding one built-in native after another.
  have bound : ∀ (ops : List Builtin) (g : Globals), (∀ name v, g.find? name = some v → P v) →
      ∀ name v, (ops.foldl (fun g op => g.bind op.name (.native (.builtin op))) g).find? name =
        some v → P v := by
    intro ops
    induction ops with
    | nil => exact fun g hg => hg
    | cons op ops ih =>
      refine fun g hg => ih _ fun name v hv => ?_
      rw [find?_bind] at hv
      split at hv
      · cases hv
        exact hbuiltin op
      · exact hg name v hv
  refine bound Builtin.all _ (fun name v hv => ?_) name v h
  rw [find?_bind] at hv
  split at hv
  · cases hv
    exact happly
  · cases hv

end Globals

end ConsMachine
