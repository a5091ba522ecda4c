import ConsMachine.Proofs.Failure
import ConsMachine.Proofs.Occurrences

/-!
# Objects and their identities

Pairs, closures, continuations and the natives of a host are objects, each known by a
*key* (`Value.key?`). Two values with one key need not have the same contents: nothing
keeps anybody from writing down two pairs with one identity. But the machine and its
surroundings never do so. They make objects in one way only, with an identity that the
supplies give out for the first time, and otherwise hand on objects that are there.

A set of values is *coherent* when it has with a value all that occurs in it, and no two
objects in it with one key (`Coherent`). Making a pair, a list, a closure or a
continuation of what is in the set extends it to a larger coherent one, and so do
loading a datum, writing down instructions, and the natives, if those of the host make
objects in no other way either (`Native.Local`).
-/

namespace ConsMachine

/-! ### Keys -/

/-- What an object is known by. -/
inductive Key where
  /-- The identity of a pair or closure. -/
  | object (id : Nat)
  | continuation (id : Nat)
  /-- The place of a native in the table of the host. -/
  | native (index : Nat)

/-- The key of an object; whatever has no key is an atom. -/
def Value.key? : Value → Option Key
  | pair id _ _ => some (.object id)
  | closure id _ _ _ _ => some (.object id)
  | continuation id _ _ => some (.continuation id)
  | native (.hosted index _) => some (.native index)
  | _ => none

/-- Of each kind of key, the one that is given out next. -/
structure Supplies where
  objects : Nat
  continuations : Nat
  natives : Nat

instance : LE Supplies :=
  ⟨fun σ τ => σ.objects ≤ τ.objects ∧ σ.continuations ≤ τ.continuations ∧ σ.natives ≤ τ.natives⟩

/-- A key that has been given out. -/
def Key.Spent (σ : Supplies) : Key → Prop
  | object id => id < σ.objects
  | continuation id => id < σ.continuations
  | native index => index < σ.natives

theorem Key.Spent.mono {σ τ : Supplies} {k : Key} (h : k.Spent σ) (hle : σ ≤ τ) : k.Spent τ := by
  obtain ⟨hobjects, hcontinuations, hnatives⟩ := hle
  cases k with
  | object => exact Nat.lt_of_lt_of_le h hobjects
  | continuation => exact Nat.lt_of_lt_of_le h hcontinuations
  | native => exact Nat.lt_of_lt_of_le h hnatives

variable {v w : Value} {k : Key}

/-- Values are the same when they are one atom, or objects with one key. -/
theorem Value.eq_or_key_of_same (h : v.same w = true) :
    v = w ∨ ∃ k, v.key? = some k ∧ w.key? = some k := by
  cases v <;> cases w <;> simp only [same, beq_iff_eq, Bool.false_eq_true] at h
  case nil.nil | apply.apply => exact .inl rfl
  case bool.bool | number.number | symbol.symbol => exact .inl (by rw [h])
  case pair.pair | closure.closure | continuation.continuation =>
    subst h
    exact .inr ⟨_, rfl, rfl⟩
  case native.native f g =>
    cases f <;> cases g <;> simp only [NativeRef.same, beq_iff_eq, Bool.false_eq_true] at h
    · exact .inl (by rw [h])
    · subst h
      exact .inr ⟨_, rfl, rfl⟩

/-- An object is not the same as one with another key. -/
theorem Value.same_eq_false_of_key (hv : v.key? = some k) (hw : w.key? ≠ some k) :
    v.same w = false := by
  refine Bool.eq_false_iff.2 fun hsame => ?_
  obtain rfl | ⟨l, hvl, hwl⟩ := eq_or_key_of_same hsame
  · exact hw hv
  · rw [hv] at hvl
    exact hw (hwl.trans hvl.symm)

/-- Nothing but itself occurs in an atom. -/
theorem Occurs.eq_of_key?_eq_none (hv : v.key? = none) (h : Occurs w v) : w = v := by
  cases h with
  | self => rfl
  | _ => cases hv

/-! ### Coherent sets -/

/-- A set of values, with the atoms and with all that occurs in its values, in which an
    object is determined by its key, and no key is yet to be given out. -/
structure Coherent (σ : Supplies) (S : Set Value) : Prop where
  atom {v : Value} : v.key? = none → v ∈ S
  closed {v w : Value} : v ∈ S → Occurs w v → w ∈ S
  eq_of_key {v w : Value} {k : Key} :
    v ∈ S → w ∈ S → v.key? = some k → w.key? = some k → v = w
  spent {v : Value} {k : Key} : v ∈ S → v.key? = some k → k.Spent σ

namespace Coherent

variable {σ τ : Supplies} {S : Set Value}

/-- In a coherent set, values that are the same have the same contents. -/
theorem eq_of_same (h : Coherent σ S) (hv : v ∈ S) (hw : w ∈ S) (hsame : v.same w = true) :
    v = w := by
  obtain heq | ⟨k, hvk, hwk⟩ := Value.eq_or_key_of_same hsame
  · exact heq
  · exact h.eq_of_key hv hw hvk hwk

/-- An object whose key is yet to be given out is none of the set. -/
theorem same_eq_false (h : Coherent σ S) (hv : v.key? = some k) (hk : ¬ k.Spent σ) (hw : w ∈ S) :
    v.same w = false :=
  Value.same_eq_false_of_key hv fun hwk => hk (h.spent hw hwk)

/-- At first there are only atoms. -/
theorem atoms (σ : Supplies) : Coherent σ {v | v.key? = none} where
  atom h := h
  closed hv hw := by rwa [hw.eq_of_key?_eq_none hv]
  eq_of_key hv _ hvk _ := absurd (hvk.symm.trans hv) (Option.some_ne_none _)
  spent hv hvk := absurd (hvk.symm.trans hv) (Option.some_ne_none _)

/-- An object may be added if what occurs in it is there, and its key is given out for
    it. -/
theorem insert (h : Coherent σ S) (hparts : ∀ w, Occurs w v → w = v ∨ w ∈ S)
    (hk : v.key? = some k) (hnew : ¬ k.Spent σ) (hle : σ ≤ τ) (hspent : k.Spent τ) :
    Coherent τ (insert v S) where
  atom ha := .inr (h.atom ha)
  closed hu hw := by
    rcases hu with rfl | hu
    · exact hparts _ hw
    · exact .inr (h.closed hu hw)
  eq_of_key {u w l} hu hw hul hwl := by
    have hkey {u : Value} (hu : u ∈ S) : u.key? ≠ v.key? := fun heq =>
      hnew (h.spent hu (heq.trans hk))
    rcases hu with rfl | hu <;> rcases hw with rfl | hw
    · rfl
    · exact absurd (hwl.trans hul.symm) (hkey hw)
    · exact absurd (hul.trans hwl.symm) (hkey hu)
    · exact h.eq_of_key hu hw hul hwl
  spent {u l} hu hul := by
    rcases hu with rfl | hu
    · rw [hk] at hul
      cases hul
      exact hspent
    · exact (h.spent hu hul).mono hle

theorem objects_le {next : Nat} (hle : σ.objects ≤ next) : σ ≤ { σ with objects := next } :=
  ⟨hle, Nat.le_refl _, Nat.le_refl _⟩

theorem pair {a d : Value} (h : Coherent σ S) (ha : a ∈ S) (hd : d ∈ S) :
    Coherent { σ with objects := σ.objects + 1 } (Insert.insert (.pair σ.objects a d) S) := by
  refine h.insert (fun w hw => ?_) rfl (Nat.lt_irrefl _) (objects_le (Nat.le_succ _))
    (Nat.lt_succ_self _)
  cases hw with
  | self => exact .inl rfl
  | car hw => exact .inr (h.closed ha hw)
  | cdr hw => exact .inr (h.closed hd hw)

theorem closure {arity : Nat} {hasRest : Bool} {code : Value} {env : List Value}
    (h : Coherent σ S) (hcode : code ∈ S) (he : ∀ v ∈ env, v ∈ S) :
    Coherent { σ with objects := σ.objects + 1 }
      (Insert.insert (.closure σ.objects arity hasRest code env) S) := by
  refine h.insert (fun w hw => ?_) rfl (Nat.lt_irrefl _) (objects_le (Nat.le_succ _))
    (Nat.lt_succ_self _)
  cases hw with
  | self => exact .inl rfl
  | code hw => exact .inr (h.closed hcode hw)
  | captured hv hw => exact .inr (h.closed (he _ hv) hw)

theorem continuation {control : Value} {env : List Value} (h : Coherent σ S)
    (hcontrol : control ∈ S) (he : ∀ v ∈ env, v ∈ S) :
    Coherent { σ with continuations := σ.continuations + 1 }
      (Insert.insert (.continuation σ.continuations control env) S) := by
  refine h.insert (fun w hw => ?_) rfl (Nat.lt_irrefl _)
    ⟨Nat.le_refl _, Nat.le_succ _, Nat.le_refl _⟩ (Nat.lt_succ_self _)
  cases hw with
  | self => exact .inl rfl
  | control hw => exact .inr (h.closed hcontrol hw)
  | saved hv hw => exact .inr (h.closed (he _ hv) hw)

theorem native (h : Coherent σ S) (name : String) :
    Coherent { σ with natives := σ.natives + 1 }
      (Insert.insert (.native (.hosted σ.natives name)) S) := by
  refine h.insert (fun w hw => ?_) rfl (Nat.lt_irrefl _)
    ⟨Nat.le_refl _, Nat.le_refl _, Nat.le_succ _⟩ (Nat.lt_succ_self _)
  cases hw
  exact .inl rfl

/-! ### Lists, data and instructions -/

theorem exists_ofList {vs : List Value} {tail : Value} (h : Coherent σ S)
    (hvs : ∀ v ∈ vs, v ∈ S) (ht : tail ∈ S) :
    ∃ S', S ⊆ S' ∧ Coherent { σ with objects := (Value.ofList vs tail σ.objects).2 } S' ∧
      (Value.ofList vs tail σ.objects).1 ∈ S' := by
  induction vs with
  | nil => exact ⟨S, subset_rfl, h, ht⟩
  | cons v vs ih =>
    rw [List.forall_mem_cons] at hvs
    obtain ⟨S', hsub, hS', hlist⟩ := ih hvs.2
    exact ⟨_, hsub.trans (Set.subset_insert _ _), hS'.pair (hsub hvs.1) hlist,
      Set.mem_insert _ _⟩

theorem exists_load (h : Coherent σ S) (d : Datum) :
    ∃ S', S ⊆ S' ∧ Coherent { σ with objects := (d.load σ.objects).2 } S' ∧
      (d.load σ.objects).1 ∈ S' := by
  induction d generalizing σ S with
  | pair a d iha ihd =>
    obtain ⟨S₁, hsub₁, hS₁, ha⟩ := iha h
    obtain ⟨S₂, hsub₂, hS₂, hd⟩ := ihd hS₁
    rw [Datum.load_pair]
    exact ⟨_, (hsub₁.trans hsub₂).trans (Set.subset_insert _ _), hS₂.pair (hsub₂ ha) hd,
      Set.mem_insert _ _⟩
  | _ => exact ⟨S, subset_rfl, h, h.atom rfl⟩

/-- The form of an instruction is made of fresh pairs around its operands. -/
theorem exists_encode {i : Instruction} (h : Coherent σ S) (hi : ∀ v ∈ i.operands, v ∈ S) :
    ∃ S', S ⊆ S' ∧ Coherent { σ with objects := (i.encode σ.objects).2 } S' ∧
      (i.encode σ.objects).1 ∈ S' :=
  h.exists_ofList (List.forall_mem_cons.2 ⟨h.atom rfl, hi⟩) (h.atom rfl)

theorem exists_encodeForms {is : List Instruction} (h : Coherent σ S)
    (his : ∀ i ∈ is, ∀ v ∈ i.operands, v ∈ S) :
    ∃ S', S ⊆ S' ∧
      Coherent { σ with objects := (Instruction.encodeForms is σ.objects).2 } S' ∧
      ∀ v ∈ (Instruction.encodeForms is σ.objects).1, v ∈ S' := by
  induction is generalizing σ S with
  | nil => exact ⟨S, subset_rfl, h, by simp [Instruction.encodeForms]⟩
  | cons i is ih =>
    rw [List.forall_mem_cons] at his
    obtain ⟨S₁, hsub₁, hS₁, hform⟩ := h.exists_encode his.1
    obtain ⟨S₂, hsub₂, hS₂, hforms⟩ := ih hS₁ fun j hj v hv => hsub₁ (his.2 j hj v hv)
    exact ⟨S₂, hsub₁.trans hsub₂, hS₂, List.forall_mem_cons.2 ⟨hsub₂ hform, hforms⟩⟩

theorem exists_encodeAll {is : List Instruction} (h : Coherent σ S)
    (his : ∀ i ∈ is, ∀ v ∈ i.operands, v ∈ S) :
    ∃ S', S ⊆ S' ∧ Coherent { σ with objects := (Instruction.encodeAll is σ.objects).2 } S' ∧
      (Instruction.encodeAll is σ.objects).1 ∈ S' := by
  obtain ⟨S₁, hsub₁, hS₁, hforms⟩ := h.exists_encodeForms his
  obtain ⟨S₂, hsub₂, hS₂, hprogram⟩ := hS₁.exists_ofList hforms (hS₁.atom (v := .nil) rfl)
  exact ⟨S₂, hsub₁.trans hsub₂, hS₂, hprogram⟩

/-- The environment of a body: only the list of the rest is made. -/
theorem exists_bodyEnv {arity next : Nat} {hasRest : Bool} {captured args env : List Value}
    (h : Coherent σ S) (hc : ∀ v ∈ captured, v ∈ S) (ha : ∀ v ∈ args, v ∈ S)
    (hb : bodyEnv arity hasRest captured args σ.objects = .ok (env, next)) :
    ∃ S', S ⊆ S' ∧ Coherent { σ with objects := next } S' ∧ ∀ v ∈ env, v ∈ S' := by
  unfold bodyEnv at hb
  split at hb
  · cases hb
  split at hb
  · cases hb
    obtain ⟨S', hsub, hS', hrest⟩ :=
      h.exists_ofList (fun v hv => ha v (List.mem_of_mem_drop hv)) (h.atom (v := .nil) rfl)
    refine ⟨S', hsub, hS', fun v hv => ?_⟩
    rw [List.mem_append, List.mem_cons] at hv
    obtain hv | rfl | hv := hv
    · exact hsub (ha v (List.mem_of_mem_take hv))
    · exact hrest
    · exact hsub (hc v hv)
  split at hb
  · cases hb
  · cases hb
    exact ⟨S, subset_rfl, h, List.forall_mem_append.2 ⟨ha, hc⟩⟩

end Coherent

/-! ### Natives -/

/-- A value is an atom, or is found in one of the values that are known. -/
def Known (known : List Value) (w : Value) : Prop :=
  w.key? = none ∨ ∃ u ∈ known, Occurs w u

namespace Known

variable {known : List Value}

theorem of_mem (h : v ∈ known) : Known known v :=
  .inr ⟨v, h, .self v⟩

theorem of_occurs (h : Known known v) (hw : Occurs w v) : Known known w := by
  rcases h with ha | ⟨u, hu, hv⟩
  · rw [hw.eq_of_key?_eq_none ha]
    exact .inl ha
  · exact .inr ⟨u, hu, hw.trans hv⟩

theorem mono {known' : List Value} (h : Known known v) (hsub : known ⊆ known') :
    Known known' v :=
  h.imp_right fun ⟨u, hu, hv⟩ => ⟨u, hsub hu, hv⟩

end Known

/-- A value is made of known objects, and of pairs or closures with identities from `next`
    on, each of which was given to one object. -/
structure MadeOf (known : List Value) (next next' : Nat) (v : Value) : Prop where
  le : next ≤ next'
  known_or_new {w : Value} {k : Key} : Occurs w v → w.key? = some k →
    Known known w ∨ ∃ id, k = .object id ∧ next ≤ id ∧ id < next'
  eq_of_key {w w' : Value} {k : Key} : Occurs w v → Occurs w' v → ¬ Known known w →
    ¬ Known known w' → w.key? = some k → w'.key? = some k → w = w'

namespace MadeOf

variable {known : List Value} {next next' : Nat}

theorem of_known (h : Known known v) : MadeOf known next next v :=
  ⟨Nat.le_refl _, fun hw _ => .inl (h.of_occurs hw), fun hw _ hne => absurd (h.of_occurs hw) hne⟩

theorem atom (h : v.key? = none) : MadeOf known next next v :=
  of_known (.inl h)

/-- The pair that is made last is made of a known value and of what was made before. -/
theorem cons {m : Nat} {a d : Value} (ha : Known known a) (hd : MadeOf known next m d) :
    MadeOf known next (m + 1) (.pair m a d) := by
  have hparts {w : Value} (hw : Occurs w (.pair m a d)) :
      w = .pair m a d ∨ Known known w ∨ Occurs w d := by
    cases hw with
    | self => exact .inl rfl
    | car hw => exact .inr (.inl (ha.of_occurs hw))
    | cdr hw => exact .inr (.inr hw)
  -- What was made before has smaller identities.
  have hbefore {w : Value} (hw : Occurs w d) (hne : ¬ Known known w) :
      w.key? ≠ some (.object m) := by
    intro hk
    obtain hknown | ⟨id, hid, _, hlt⟩ := hd.known_or_new hw hk
    · exact hne hknown
    · cases hid
      exact Nat.lt_irrefl m hlt
  refine ⟨Nat.le_succ_of_le hd.le, fun {w k} hw hk => ?_, fun {w w' k} hw hw' hne hne' hk hk' => ?_⟩
  · rcases hparts hw with rfl | hw | hw
    · cases hk
      exact .inr ⟨m, rfl, hd.le, Nat.lt_succ_self m⟩
    · exact .inl hw
    · exact (hd.known_or_new hw hk).imp_right fun ⟨id, hid, hle, hlt⟩ =>
        ⟨id, hid, hle, Nat.lt_succ_of_lt hlt⟩
  · rcases (hparts hw).imp_right (·.resolve_left hne) with rfl | hw <;>
      rcases (hparts hw').imp_right (·.resolve_left hne') with rfl | hw'
    · rfl
    · cases hk
      exact absurd hk' (hbefore hw' hne')
    · cases hk'
      exact absurd hk (hbefore hw hne)
    · exact hd.eq_of_key hw hw' hne hne' hk hk'

theorem mono {known' : List Value} (h : MadeOf known next next' v) (hsub : known ⊆ known') :
    MadeOf known' next next' v where
  le := h.le
  known_or_new hw hk := (h.known_or_new hw hk).imp_left (·.mono hsub)
  eq_of_key hw hw' hne hne' :=
    h.eq_of_key hw hw' (mt (·.mono hsub) hne) (mt (·.mono hsub) hne')

end MadeOf

/-- A native makes objects only as the machine does: what it returns is made of its
    arguments, of values that it has captured, and of fresh objects. -/
def Native.Local (captured : List Value) (f : Native) : Prop :=
  ∀ args next v next', f args next = .ok (v, next') → MadeOf (args ++ captured) next next' v

theorem Native.Local.mono {captured captured' : List Value} {f : Native} (h : f.Local captured)
    (hsub : captured ⊆ captured') : f.Local captured' := fun args next v next' hv =>
  (h args next v next' hv).mono
    (List.append_subset.2 ⟨List.subset_append_left _ _, List.subset_append_of_subset_right _ hsub⟩)

/-- A typed native makes its values of the converted arguments. -/
theorem Native.Local.typed {ts : List ParamType} {body : Arguments ts → Alloc Value}
    {captured : List Value}
    (h : ∀ as next v next', body as next = .ok (v, next') →
      MadeOf (Arguments.values ts as) next next' v) :
    (Native.typed ts body).Local captured := by
  intro args next v next' hv
  obtain ⟨as, rest, hle, ht, hb⟩ := Native.typed_eq_ok hv
  exact (h as next v next' hb).mono
    (List.subset_append_of_subset_left _ (Arguments.values_subset ht))

/-- The built-in natives make objects only as the machine does. -/
theorem Builtin.local_run (op : Builtin) (captured : List Value) : op.run.Local captured := by
  intro args next v next' hv
  cases returns_of_run hv with
  | pair a d =>
    exact .cons (.of_mem List.mem_cons_self)
      (.of_known (.of_mem (List.mem_cons_of_mem a List.mem_cons_self)))
  | car id _ d =>
    have hpair : Known ([.pair id v d] ++ captured) (.pair id v d) := .of_mem List.mem_cons_self
    exact .of_known (hpair.of_occurs (.car (.self v)))
  | cdr id a =>
    have hpair : Known ([.pair id a v] ++ captured) (.pair id a v) := .of_mem List.mem_cons_self
    exact .of_known (hpair.of_occurs (.cdr (.self v)))
  | bool | number => exact .atom rfl

/-- All natives of a host make objects only as the machine does. -/
def Host.Local (captured : List Value) (host : Host) : Prop :=
  ∀ f ∈ host.natives, f.Local captured

theorem Host.Local.behaviour {host : Host} {captured : List Value} (h : host.Local captured)
    (f : NativeRef) : (host.behaviour f).Local captured :=
  Host.forall_behaviour (Builtin.local_run · captured) h (by rintro e args next v next' ⟨⟩) f

/-- What is made of values of a coherent set extends it. -/
theorem Coherent.exists_madeOf {σ : Supplies} {S : Set Value} {known : List Value} {next : Nat}
    (h : Coherent σ S) (hknown : ∀ u ∈ known, u ∈ S) (hv : MadeOf known σ.objects next v) :
    ∃ S', S ⊆ S' ∧ Coherent { σ with objects := next } S' ∧ v ∈ S' := by
  have hS {w : Value} (hw : Known known w) : w ∈ S :=
    hw.elim h.atom fun ⟨u, hu, hw⟩ => h.closed (hknown u hu) hw
  -- An object that is not known has a key that is yet to be given out.
  have hnew {w : Value} {k : Key} (hw : Occurs w v) (hk : w.key? = some k) (hwS : w ∉ S) :
      ¬ k.Spent σ := by
    obtain hw | ⟨id, rfl, hle, _⟩ := hv.known_or_new hw hk
    · exact absurd (hS hw) hwS
    · exact Nat.not_lt.2 hle
  refine ⟨S ∪ {w | Occurs w v}, Set.subset_union_left, ⟨fun ha => .inl (h.atom ha), ?_, ?_, ?_⟩,
    .inr (.self v)⟩
  · rintro u w (hu | hu) hw
    · exact .inl (h.closed hu hw)
    · exact .inr (hw.trans hu)
  · intro u w k hu hw huk hwk
    by_cases huS : u ∈ S <;> by_cases hwS : w ∈ S
    · exact h.eq_of_key huS hwS huk hwk
    · exact absurd (h.spent huS huk) (hnew (hw.resolve_left hwS) hwk hwS)
    · exact absurd (h.spent hwS hwk) (hnew (hu.resolve_left huS) huk huS)
    · exact hv.eq_of_key (hu.resolve_left huS) (hw.resolve_left hwS) (mt hS huS) (mt hS hwS) huk hwk
  · rintro u k (hu | hu) huk
    · exact (h.spent hu huk).mono (objects_le hv.le)
    · obtain hu | ⟨id, rfl, _, hlt⟩ := hv.known_or_new hu huk
      · exact (h.spent (hS hu) huk).mono (objects_le hv.le)
      · exact hlt

end ConsMachine
