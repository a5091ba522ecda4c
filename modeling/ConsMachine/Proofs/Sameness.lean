import ConsMachine.Proofs.CatalogueObjects
import ConsMachine.Proofs.Worlds

/-!
# What identity tells

Programs compare objects by identity (`Value.same`), and so does the comparison of
contents where it comes across one object twice. In every world that comes about, they
can rely on it (`World.identity_coherent`):

* values that are the same have the same contents;
* a value stays the same wherever it is passed on (`Transport`): through instructions,
  globals, pairs, arguments, and lists of further arguments;
* an object that is made is not the same as anything else there is, nor as another that
  is made with it (`World.New`).
-/

namespace ConsMachine

variable {host : Host} {s t u : State} {f v w : Value} {args : List Value} {i : Instruction}

/-! ### What a step leaves -/

namespace State

/-- The next step succeeds, with a value on top of the stack. -/
def Leaves (host : Host) (s : State) (v : Value) : Prop :=
  ∃ t, s.step host = .ok t ∧ t.stack.head? = some v

/-- A native leaves what it returns. -/
theorem Calls.of_native {r : NativeRef} (h : s.Calls (.native r) args) (hv : s.Leaves host v) :
    ∃ next, host.behaviour r args s.nextObject = .ok (v, next) := by
  obtain ⟨t, ht, hv⟩ := hv
  obtain ⟨rest, below, ht⟩ := h.exists_call ht
  simp only [call] at ht
  split at ht
  · rename_i w next hw
    cases ht
    cases hv
    exact ⟨next, hw⟩
  · cases ht

/-- The body of a closure is entered in the environment that its arguments make. -/
theorem Calls.of_closure {id arity : Nat} {hasRest : Bool} {code : Value} {captured : List Value}
    (h : s.Calls (.closure id arity hasRest code captured) args) (ht : s.step host = .ok t) :
    bodyEnv arity hasRest captured args s.nextObject = .ok (t.env, t.nextObject) := by
  obtain ⟨rest, below, ht⟩ := h.exists_call ht
  simp only [call] at ht
  split at ht
  · rename_i env next hb
    cases ht
    exact hb
  · cases ht

end State

section BodyEnv

variable {arity next next' : Nat} {hasRest : Bool} {captured env : List Value}

/-- The first arguments are the parameters. -/
theorem getElem?_of_bodyEnv (h : bodyEnv arity hasRest captured args next = .ok (env, next'))
    {index : Nat} (hi : index < arity) : env[index]? = args[index]? := by
  unfold bodyEnv at h
  split at h
  · cases h
  rename_i hlen
  have hindex : index < args.length := by omega
  split at h
  · cases h
    rw [List.getElem?_append_left (by rw [List.length_take]; omega), List.getElem?_take_of_lt hi]
  split at h
  · cases h
  · cases h
    rw [List.getElem?_append_left hindex]

/-- The list of the rest comes behind them. -/
theorem rest_of_bodyEnv (h : bodyEnv arity true captured args next = .ok (env, next')) :
    env[arity]? = some (Value.ofList (args.drop arity) .nil next).1 := by
  unfold bodyEnv at h
  split at h
  · cases h
  · rename_i hlen
    cases h
    rw [List.getElem?_append_right (by rw [List.length_take]; omega), List.length_take,
      Nat.min_eq_left (by omega), Nat.sub_self]
    rfl

end BodyEnv

/-! ### Passing values on -/

/-- A value is passed on, and comes out as another. -/
inductive Transport (host : Host) : Value → Value → Prop
  | refl (v : Value) : Transport host v v
  | trans {u v w : Value} : Transport host u v → Transport host v w → Transport host u w
  | push {s : State} {v w : Value} : s.Executes (.push v) → s.Leaves host w → Transport host v w
  | access {s : State} {index : Nat} {v w : Value} : s.Executes (.access index) →
      s.env[index]? = some v → s.Leaves host w → Transport host v w
  /-- A global is bound, and looked up while it is bound to the same, in this run or in
      another, on this engine or on a clone. -/
  | global {s t u : State} {name : String} {v w : Value} : s.Executes (.setGlobal name) →
      s.stack.head? = some v → s.step host = .ok t →
      u.globals.find? name = t.globals.find? name → u.Executes (.getGlobal name) →
      u.Leaves host w → Transport host v w
  | car {s t : State} {v d p q w : Value} : s.Calls (.native (.builtin .cons)) [v, d] →
      s.Leaves host p → Transport host p q → t.Calls (.native (.builtin .car)) [q] →
      t.Leaves host w → Transport host v w
  | cdr {s t : State} {a v p q w : Value} : s.Calls (.native (.builtin .cons)) [a, v] →
      s.Leaves host p → Transport host p q → t.Calls (.native (.builtin .cdr)) [q] →
      t.Leaves host w → Transport host v w
  | argument {s t : State} {id arity index : Nat} {hasRest : Bool} {code v w : Value}
      {captured args : List Value} : s.Calls (.closure id arity hasRest code captured) args →
      index < arity → args[index]? = some v → s.step host = .ok t → t.env[index]? = some w →
      Transport host v w
  /-- The arguments beyond the parameters are the items of the list of the rest. -/
  | rest {s t : State} {id arity index : Nat} {code v w r r' : Value}
      {captured args : List Value} : s.Calls (.closure id arity true code captured) args →
      args[arity + index]? = some v → s.step host = .ok t → t.env[arity]? = some r →
      Transport host r r' → r'.items[index]? = some w → Transport host v w

/-- What comes out is what was passed on. -/
theorem Transport.eq (h : Transport host v w) : w = v := by
  induction h with
  | refl => rfl
  | trans _ _ ihv ihw => exact ihw.trans ihv
  | push hexecutes hw =>
    obtain ⟨t, ht, hw⟩ := hw
    obtain ⟨rest, hexecute⟩ := hexecutes.exists_execute ht
    cases hexecute
    cases hw
    rfl
  | access hexecutes hv hw =>
    obtain ⟨t, ht, hw⟩ := hw
    obtain ⟨rest, hexecute⟩ := hexecutes.exists_execute ht
    simp only [State.execute, hv] at hexecute
    cases hexecute
    cases hw
    rfl
  | @global s t u name v w hset hv ht hglobals hget hw =>
    obtain ⟨u', hu, hw⟩ := hw
    obtain ⟨rest, hexecute⟩ := hset.exists_execute ht
    obtain ⟨rest', hexecute'⟩ := hget.exists_execute hu
    obtain ⟨below, hstack⟩ := List.head?_eq_some_iff.1 hv
    simp only [State.execute, hstack] at hexecute
    cases hexecute
    -- The binding is there until the global is looked up.
    rw [Globals.find?_bind_self] at hglobals
    simp only [State.execute, Globals.get_eq_ok_iff.2 hglobals] at hexecute'
    cases hexecute'
    cases hw
    rfl
  | car hcons hp _ hcar hw ih =>
    obtain ⟨next, hp⟩ := hcons.of_native hp
    obtain ⟨next', hw⟩ := hcar.of_native hw
    subst ih
    cases hp
    cases hw
    rfl
  | cdr hcons hp _ hcdr hw ih =>
    obtain ⟨next, hp⟩ := hcons.of_native hp
    obtain ⟨next', hw⟩ := hcdr.of_native hw
    subst ih
    cases hp
    cases hw
    rfl
  | argument hcalls hlt hv ht hw =>
    rw [getElem?_of_bodyEnv (hcalls.of_closure ht) hlt, hv] at hw
    cases hw
    rfl
  | rest hcalls hv ht hr _ hw ih =>
    rw [rest_of_bodyEnv (hcalls.of_closure ht)] at hr
    cases hr
    rw [ih, Value.items_ofList, Value.items_of_isAtom rfl, List.append_nil, List.getElem?_drop,
      hv] at hw
    cases hw
    rfl

/-! ### Making objects -/

/-- The objects that the next step makes, but for what natives of the host make. -/
inductive State.Makes (host : Host) (s : State) : List Value → Prop
  | cons {args : List Value} {p : Value} : s.Calls (.native (.builtin .cons)) args →
      s.Leaves host p → Makes host s [p]
  | closure {arity : Nat} {hasRest : Bool} {code f : Value} :
      s.Executes (.closure arity hasRest code) → s.Leaves host f → Makes host s [f]
  | rest {t : State} {id arity : Nat} {code r : Value} {captured args : List Value} :
      s.Calls (.closure id arity true code captured) args → s.step host = .ok t →
      t.env[arity]? = some r → Makes host s r.spine

/-- The built-in native makes one pair. -/
theorem Builtin.key?_of_cons {next next' : Nat} (h : cons.run args next = .ok (v, next')) :
    v.key? = some (.object next) := by
  rw [run] at h
  obtain ⟨⟨a, d, ⟨⟩⟩, _, _, _, hbody⟩ := Native.typed_eq_ok h
  cases hbody
  rfl

theorem State.Makes.exists_fresh {made : List Value} (h : s.Makes host made) :
    ∃ next, Fresh s.nextObject next made := by
  cases h with
  | cons hcalls hp =>
    obtain ⟨next, hp⟩ := hcalls.of_native hp
    exact ⟨_, .single (Builtin.key?_of_cons hp)⟩
  | closure hexecutes hf =>
    obtain ⟨t, ht, hf⟩ := hf
    obtain ⟨rest, hexecute⟩ := hexecutes.exists_execute ht
    cases hexecute
    cases hf
    exact ⟨_, .single rfl⟩
  | rest hcalls ht hr =>
    rw [rest_of_bodyEnv (hcalls.of_closure ht)] at hr
    cases hr
    exact ⟨_, .list _ s.nextObject⟩

namespace World

variable {W : World} {S : Set Value} {made : List Value}

/-- Objects that are not the same as anything in the world, nor as each other. -/
def New (W : World) (made : List Value) : Prop :=
  made.Pairwise (fun v w => v.same w = false) ∧ ∀ v ∈ made, ∀ w, W.Reaches w → v.same w = false

/-- Objects are new if their identities come from the supply of the session. -/
theorem Within.new {next : Nat} (h : W.Within S) (hmade : Fresh W.session.nextObject next made) :
    W.New made := by
  refine ⟨hmade.distinct.imp_of_mem fun hv _ hne => ?_, fun v hv w hw => ?_⟩
  · obtain ⟨id, hid, _⟩ := hmade.given _ hv
    exact Value.same_eq_false_of_key hid (hid ▸ hne)
  · obtain ⟨id, hid, hle, _⟩ := hmade.given v hv
    exact h.coherent.same_eq_false hid (Nat.not_lt.2 hle) (h.reaches hw)

/-- Identity can be relied on. In every world that comes about by reading, building values,
    binding globals, adding and cloning engines, registering natives that make objects as
    the machine does, and running threads for any number of steps:

    * values that are the same have the same contents, so they are equal and print the same;
    * what is passed on, through instructions, calls, globals, pairs and lists of further
      arguments, is the same where it comes out;
    * the pairs that are made by reading or building a value, and the pairs and closures that
      a step of a thread makes, are not the same as anything that the world reaches at this
      moment, nor as each other. -/
theorem identity_coherent (h : W.Reachable) :
    (∀ v w, W.Reaches v → W.Reaches w → v.same w = true →
        v = w ∧ v.equal w = true ∧ v.print = w.print) ∧
      (∀ v w, Transport W.session.host v w → w = v ∧ v.same w = true) ∧
      (∀ (c : Construction) v s, W.session.alloc c.run = .ok (v, s) → W.New (c.made v)) ∧
      ∀ th ∈ W.threads, ∀ made, (W.state th).Makes W.session.host made → W.New made := by
  obtain ⟨S, hS⟩ := h.within
  refine ⟨fun v w hv hw hsame => ?_, fun v w hvw => ?_, fun c v s hs => ?_,
    fun th _ made hmade => ?_⟩
  · obtain rfl := hS.coherent.eq_of_same (hS.reaches hv) (hS.reaches hw) hsame
    exact ⟨rfl, (Value.Equal.refl v).equal, rfl⟩
  · obtain rfl := hvw.eq
    exact ⟨rfl, w.same_self⟩
  · obtain ⟨next, hrun, _⟩ := Session.alloc_eq_ok_iff.1 hs
    exact hS.new (Construction.fresh hrun)
  · obtain ⟨next, hfresh⟩ := hmade.exists_fresh
    exact hS.new hfresh

theorem Has.of_held (h : v ∈ W.held) : W.Has v :=
  .inr ⟨v, .held h, .self v⟩

/-- A pair that was bound in one engine and looked up in a clone of it. -/
theorem exists_reachable_clone :
    ∃ W : World, W.Reachable ∧ W.threads.map Thread.stack = [[.pair 0 (.number 1) .nil]] ∧
      W.session.nextObject = 4 ∧ W.session.host.natives.size = 1 ∧
      W.held.getLast? = some (.pair 0 (.number 1) .nil) := by
  have hlist := Reachable.empty.act (@Act.register _ _ [] 0 "list" (by simp)
    (@Catalogue.local_find? [] "list" _ .any rfl))
  have hpair := hlist.act (@Act.construct _ (.cons (.number 1) .nil) _ _
    (by simp [Construction.operands, Has, Value.key?]) rfl)
  have hbound := hpair.act (.bind 0 "x" (.of_held List.mem_cons_self))
  have hclone := hbound.act (.engine (.inr (.inr (Array.getElem_mem (i := 0) (by decide)))))
  have hprogram := hclone.act (@Act.construct _ (.program [.getGlobal "x"]) _ _
    (by simp [Construction.operands, Instruction.operands, Has, Value.key?]) rfl)
  have hthread := hprogram.act (@Act.begin _ 1 _ [] [] (by decide)
    (.of_held List.mem_cons_self) (by simp) (by simp))
  have hstep := hthread.act (@Act.step _ [] [] _ rfl)
  exact ⟨_, hstep, rfl, rfl, rfl, rfl⟩

/-- The pair is the same for the host and on the stack of the clone, and another one with
    the same contents is not. -/
theorem identity_coherent_clone :
    ∃ (W : World) (p q : Value) (s : Session), W.Reachable ∧ p ∈ W.held ∧
      W.threads.map Thread.stack = [[p]] ∧ (∀ v, W.Reaches v → v.same p = true → v = p) ∧
      W.session.alloc (Construction.cons (.number 1) .nil).run = .ok (q, s) ∧
      q.equal p = true ∧ q.same p = false := by
  obtain ⟨W, hW, hstack, hnext, _, hlast⟩ := exists_reachable_clone
  obtain ⟨hsame, _, hmade, _⟩ := identity_coherent hW
  have hp : .pair 0 (.number 1) .nil ∈ W.held := List.mem_of_getLast? hlast
  have hreaches : W.Reaches (.pair 0 (.number 1) .nil) := ⟨_, .held hp, .self _⟩
  have hq : W.session.alloc (Construction.cons (.number 1) .nil).run =
      .ok (.pair 4 (.number 1) .nil, { W.session with nextObject := 5 }) :=
    Session.alloc_eq_ok_iff.2 ⟨5, by rw [hnext]; rfl, rfl⟩
  obtain ⟨_, hnew⟩ := hmade _ _ _ hq
  have hequal : Value.Equal (.pair 4 (.number 1) .nil) (.pair 0 (.number 1) .nil) :=
    ⟨rfl, rfl⟩
  refine ⟨W, _, _, _, hW, hp, hstack, fun v hv h => (hsame v _ hv hreaches h).1, hq,
    hequal.equal, hnew _ List.mem_cons_self _ hreaches⟩

end World

end ConsMachine
