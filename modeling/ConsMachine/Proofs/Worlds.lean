import ConsMachine.Proofs.FreshObjects
import ConsMachine.Proofs.Reading

/-!
# Identity in sessions

A *world* is a session with all that can keep an object alive in it: the globals of the
engines, the threads that are running on them, what the host has in its hands, and what
its natives have captured (`World`). Worlds change by what a host can do, in any order
(`World.Act`): read a text, build a value, write down instructions, bind a global, add an
engine or a copy of one, register a native, call one, begin a thread, let one make a
step, and drop what it held.

In every world that comes about in this way (`World.Reachable`), the values are in a
coherent set, by induction on what has happened (`World.Reachable.within`). A run is one
step of a thread after another, so the worlds in which a session has taken over what a
run leaves are among them (`World.Reachable.keep`).

Whatever is built, the pairs that are made for it get identities of their own, which the
supplies give out for the first time (`Construction.fresh`).
-/

namespace ConsMachine

/-! ### Fresh objects -/

/-- The pairs that a list consists of. -/
def Value.spine : Value → List Value
  | pair id a d => pair id a d :: d.spine
  | _ => []

/-- For each of some objects an identity was given out, from `next` on, and now `next'`
    is the next. -/
structure Fresh (next next' : Nat) (made : List Value) : Prop where
  le : next ≤ next'
  distinct : made.Pairwise fun v w => w.key? ≠ v.key?
  given : ∀ v ∈ made, ∃ id, v.key? = some (.object id) ∧ next ≤ id ∧ id < next'

namespace Fresh

variable {l m n : Nat} {xs ys : List Value} {v : Value}

theorem nil (n : Nat) : Fresh n n [] :=
  ⟨Nat.le_refl n, .nil, by simp⟩

theorem append (hx : Fresh l m xs) (hy : Fresh m n ys) : Fresh l n (xs ++ ys) := by
  refine ⟨hx.le.trans hy.le, List.pairwise_append.2 ⟨hx.distinct, hy.distinct, ?_⟩, fun v hv => ?_⟩
  · intro v hv w hw heq
    obtain ⟨i, hi, _, hlt⟩ := hx.given v hv
    obtain ⟨j, hj, hle, _⟩ := hy.given w hw
    rw [hi, hj] at heq
    cases heq
    exact absurd hlt (Nat.not_lt.2 hle)
  · rcases List.mem_append.1 hv with hv | hv
    · obtain ⟨id, hid, hle, hlt⟩ := hx.given v hv
      exact ⟨id, hid, hle, Nat.lt_of_lt_of_le hlt hy.le⟩
    · obtain ⟨id, hid, hle, hlt⟩ := hy.given v hv
      exact ⟨id, hid, hx.le.trans hle, hlt⟩

theorem perm (h : Fresh l n xs) (hp : xs.Perm ys) : Fresh l n ys :=
  ⟨h.le, hp.pairwise h.distinct Ne.symm, fun v hv => h.given v (hp.mem_iff.2 hv)⟩

theorem single (hk : v.key? = some (.object n)) : Fresh n (n + 1) [v] := by
  refine ⟨Nat.le_succ n, List.pairwise_singleton _ _, fun w hw => ?_⟩
  rw [List.mem_singleton.1 hw]
  exact ⟨n, hk, Nat.le_refl n, Nat.lt_succ_self n⟩

/-- The object that is made last may come first. -/
theorem cons (h : Fresh l n xs) (hk : v.key? = some (.object n)) : Fresh l (n + 1) (v :: xs) :=
  (h.append (single hk)).perm (List.perm_append_singleton v xs)

theorem ofList (vs : List Value) (tail : Value) (next : Nat) :
    Fresh next (Value.ofList vs tail next).2
      ((Value.ofList vs tail next).1.spine.take vs.length) := by
  induction vs with
  | nil => exact nil next
  | cons v vs ih => exact ih.cons rfl

/-- A list with a proper end has no pairs but the fresh ones. -/
theorem list (vs : List Value) (next : Nat) :
    Fresh next (Value.ofList vs .nil next).2 (Value.ofList vs .nil next).1.spine := by
  induction vs with
  | nil => exact nil next
  | cons v vs ih => exact ih.cons rfl

theorem load (d : Datum) (next : Nat) :
    Fresh next (d.load next).2 (d.load next).1.pairs := by
  induction d generalizing next with
  | pair a d iha ihd =>
    rw [Datum.load_pair]
    exact ((iha next).append (ihd _)).cons rfl
  | _ => exact nil next

theorem encodeForms (is : List Instruction) (next : Nat) :
    Fresh next (Instruction.encodeForms is next).2
      ((Instruction.encodeForms is next).1.flatMap Value.spine) := by
  induction is generalizing next with
  | nil => exact nil next
  | cons i is ih =>
    have hform : Fresh next (i.encode next).2 (i.encode next).1.spine := list _ next
    exact hform.append (ih (i.encode next).2)

end Fresh

/-! ### Building values -/

/-- The ways to build a value from outside the machine. -/
inductive Construction where
  | read (text : String)
  | readAll (text : String)
  | cons (car cdr : Value)
  | list (items : List Value)
  | listOnto (items : List Value) (tail : Value)
  | encode (i : Instruction)
  | program (is : List Instruction)

namespace Construction

/-- Build the value. -/
def run : Construction → Alloc Value
  | read text => Alloc.read text
  | readAll text => Alloc.readAll text
  | cons a d => Alloc.cons a d
  | list items => Alloc.list items
  | listOnto items tail => Alloc.listOnto items tail
  | encode i => fun next => .ok (i.encode next)
  | program is => fun next => .ok (Instruction.encodeAll is next)

/-- The values that it is built of. -/
def operands : Construction → List Value
  | read _ | readAll _ => []
  | cons a d => [a, d]
  | list items => items
  | listOnto items tail => tail :: items
  | encode i => i.operands
  | program is => is.flatMap Instruction.operands

/-- The pairs that were made for the value that was built. -/
def made : Construction → Value → List Value
  | read _, v | readAll _, v => v.pairs
  | cons .., v => [v]
  | list _, v | encode _, v => v.spine
  | listOnto items _, v => v.spine.take items.length
  | program _, v => v.items.flatMap Value.spine ++ v.spine

variable {c : Construction} {next : Nat} {r : Value × Nat}

/-- Every pair that is made gets an identity of its own. -/
theorem fresh (h : c.run next = .ok r) : Fresh next r.2 (c.made r.1) := by
  cases c with
  | read text =>
    obtain ⟨d, _, hload⟩ := Alloc.read_eq_ok_iff.1 h
    obtain rfl : d.load next = r := hload
    exact .load d next
  | readAll text =>
    obtain ⟨ds, _, hload⟩ := Alloc.readAll_eq_ok_iff.1 h
    obtain rfl : (Datum.ofList ds .nil).load next = r := hload
    exact .load _ next
  | cons a d => cases h; exact .single rfl
  | list items => cases h; exact .list items next
  | listOnto items tail => cases h; exact .ofList items tail next
  | encode i => cases h; exact .list _ next
  | program is =>
    cases h
    have hforms := Fresh.encodeForms is next
    have hlist := Fresh.list (Instruction.encodeForms is next).1 (Instruction.encodeForms is next).2
    have hmade := hforms.append hlist
    simpa [made, Instruction.encodeAll, Value.items_of_isAtom (v := .nil) rfl] using hmade

/-- A value that is built of values of a coherent set extends it. -/
theorem exists_coherent {σ : Supplies} {S : Set Value} (hS : Coherent σ S)
    (hc : ∀ u ∈ c.operands, u ∈ S) (h : c.run σ.objects = .ok r) :
    ∃ S', S ⊆ S' ∧ Coherent { σ with objects := r.2 } S' ∧ r.1 ∈ S' := by
  cases c with
  | read text =>
    obtain ⟨d, _, hload⟩ := Alloc.read_eq_ok_iff.1 h
    obtain rfl : d.load σ.objects = r := hload
    exact hS.exists_load d
  | readAll text =>
    obtain ⟨ds, _, hload⟩ := Alloc.readAll_eq_ok_iff.1 h
    obtain rfl : (Datum.ofList ds .nil).load σ.objects = r := hload
    exact hS.exists_load _
  | cons a d =>
    cases h
    exact ⟨_, Set.subset_insert _ S,
      hS.pair (hc a List.mem_cons_self) (hc d (List.mem_cons_of_mem a List.mem_cons_self)),
      Set.mem_insert _ S⟩
  | list items => cases h; exact hS.exists_ofList hc (hS.atom (v := .nil) rfl)
  | listOnto items tail =>
    cases h
    rw [operands, List.forall_mem_cons] at hc
    exact hS.exists_ofList hc.2 hc.1
  | encode i => cases h; exact hS.exists_encode hc
  | program is =>
    cases h
    exact hS.exists_encodeAll fun i hi u hu => hc u (List.mem_flatMap.2 ⟨i, hi, hu⟩)

end Construction

/-! ### Worlds -/

theorem Session.alloc_eq_ok_iff {α : Type} {s s' : Session} {a : Alloc α} {x : α} :
    s.alloc a = .ok (x, s') ↔
      ∃ next, a s.nextObject = .ok (x, next) ∧ s' = { s with nextObject := next } := by
  unfold alloc
  split
  · rename_i y next h
    constructor
    · rintro ⟨⟩
      exact ⟨next, h, rfl⟩
    · rintro ⟨next', h', rfl⟩
      rw [h] at h'
      cases h'
      rfl
  · rename_i e h
    constructor
    · rintro ⟨⟩
    · rintro ⟨next, h', _⟩
      rw [h] at h'
      cases h'

/-- A context of execution on an engine. -/
structure Thread where
  engine : Nat
  control : Value
  stack : List Value
  env : List Value

/-- The values of a thread are in a set. -/
structure Thread.Within (S : Set Value) (th : Thread) : Prop where
  control : th.control ∈ S
  stack : ∀ v ∈ th.stack, v ∈ S
  env : ∀ v ∈ th.env, v ∈ S

theorem Thread.Within.mono {S S' : Set Value} {th : Thread} (h : th.Within S) (hsub : S ⊆ S') :
    th.Within S' :=
  ⟨hsub h.control, fun v hv => hsub (h.stack v hv), fun v hv => hsub (h.env v hv)⟩

/-- A session, and what keeps values alive in it besides the globals. -/
structure World where
  session : Session
  threads : List Thread
  /-- The values in the hands of the host. -/
  held : List Value
  /-- The values that the natives of the host have captured. -/
  captured : List Value

namespace World

/-- One engine, and nothing else. -/
def start (g : Globals) : World :=
  ⟨.start g, [], [], []⟩

/-- The state of the machine in which a thread runs. -/
def state (W : World) (th : Thread) : State :=
  W.session.state th.engine th.control th.stack th.env

/-- The world when a thread has come to a state. -/
def keep (W : World) (before after : List Thread) (th : Thread) (t : State) : World :=
  { W with
    session := W.session.keep th.engine t
    threads := before ++ ⟨th.engine, t.control, t.stack, t.env⟩ :: after }

def supplies (W : World) : Supplies :=
  ⟨W.session.nextObject, W.session.nextContinuation, W.session.host.natives.size⟩

/-- The values that are alive by themselves. -/
inductive Root (W : World) : Value → Prop
  | held {v : Value} : v ∈ W.held → Root W v
  | captured {v : Value} : v ∈ W.captured → Root W v
  | globals {engine : Nat} {g : Globals} {name : String} {v : Value} :
      W.session.engines[engine]? = some g → g.find? name = some v → Root W v
  | control {th : Thread} : th ∈ W.threads → Root W th.control
  | stack {th : Thread} {v : Value} : th ∈ W.threads → v ∈ th.stack → Root W v
  | env {th : Thread} {v : Value} : th ∈ W.threads → v ∈ th.env → Root W v

/-- A value can be reached in a world: on a stack, in an environment, in a global of an
    engine or with the host, or in what a value there consists of. -/
def Reaches (W : World) (v : Value) : Prop :=
  ∃ r, W.Root r ∧ Occurs v r

/-- A value that the host can use: it can write down an atom, and take hold of what it
    reaches. -/
def Has (W : World) (v : Value) : Prop :=
  v.key? = none ∨ W.Reaches v

/-- Something happens in a world. -/
inductive Act (W : World) : World → Prop
  /-- The host reads a text, or builds a value. -/
  | construct {c : Construction} {v : Value} {s : Session} : (∀ u ∈ c.operands, W.Has u) →
      W.session.alloc c.run = .ok (v, s) → Act W { W with session := s, held := v :: W.held }
  /-- The host calls a native. -/
  | call {f : NativeRef} {args : List Value} {v : Value} {s : Session} : (∀ u ∈ args, W.Has u) →
      W.session.alloc (W.session.host.behaviour f args) = .ok (v, s) →
      Act W { W with session := s, held := v :: W.held }
  /-- The host looks up a value, or takes one apart. -/
  | hold {v : Value} : W.Has v → Act W { W with held := v :: W.held }
  | drop {held : List Value} : held ⊆ W.held → Act W { W with held := held }
  | bind {v : Value} (engine : Nat) (name : String) : W.Has v →
      Act W { W with session := W.session.bind engine name v }
  /-- A new engine is empty, or has the globals that engines start with, or is a clone. -/
  | engine {g : Globals} : g = .empty ∨ g = .initial ∨ g ∈ W.session.engines →
      Act W { W with session := W.session.addEngine g }
  | register {f : Native} {captured : List Value} (engine : Nat) (name : String) :
      (∀ v ∈ captured, W.Has v) → f.Local captured →
      Act W { W with
        session := W.session.register engine name f
        captured := captured ++ W.captured }
  | begin {engine : Nat} {control : Value} {stack env : List Value} :
      engine < W.session.engines.size → W.Has control → (∀ v ∈ stack, W.Has v) →
      (∀ v ∈ env, W.Has v) →
      Act W { W with threads := ⟨engine, control, stack, env⟩ :: W.threads }
  /-- A thread makes a step, which succeeds or fails. -/
  | step {before after : List Thread} {th : Thread} : W.threads = before ++ th :: after →
      Act W (W.keep before after th (State.after ((W.state th).step W.session.host)))
  | finish {threads : List Thread} : threads ⊆ W.threads → Act W { W with threads := threads }

/-- The worlds that come about. -/
inductive Reachable : World → Prop
  | empty : Reachable (start .empty)
  | initial : Reachable (start .initial)
  | act {W W' : World} : Reachable W → W.Act W' → Reachable W'

/-- The values of a world are in a coherent set, and its natives make objects in no other
    way than the machine. -/
structure Within (S : Set Value) (W : World) : Prop where
  coherent : Coherent W.supplies S
  held : ∀ v ∈ W.held, v ∈ S
  captured : ∀ v ∈ W.captured, v ∈ S
  globals : ∀ (i : Nat) (g : Globals), W.session.engines[i]? = some g →
    ∀ name v, g.find? name = some v → v ∈ S
  threads : ∀ th ∈ W.threads, th.Within S
  natives : W.session.host.Local W.captured

variable {W W' : World} {S : Set Value} {v w : Value}

namespace Within

theorem root (h : W.Within S) (hv : W.Root v) : v ∈ S := by
  cases hv with
  | held hv => exact h.held v hv
  | captured hv => exact h.captured v hv
  | globals hg hv => exact h.globals _ _ hg _ v hv
  | control hth => exact (h.threads _ hth).control
  | stack hth hv => exact (h.threads _ hth).stack v hv
  | env hth hv => exact (h.threads _ hth).env v hv

theorem reaches (h : W.Within S) (hv : W.Reaches v) : v ∈ S := by
  obtain ⟨r, hr, hoccurs⟩ := hv
  exact h.coherent.closed (h.root hr) hoccurs

theorem has (h : W.Within S) (hv : W.Has v) : v ∈ S :=
  hv.elim h.coherent.atom h.reaches

/-- With other values in the hands of the host, and supplies to match. -/
theorem with_held {S' : Set Value} {held : List Value} {next : Nat} (h : W.Within S)
    (hsub : S ⊆ S') (hS' : Coherent { W.supplies with objects := next } S')
    (hheld : ∀ v ∈ held, v ∈ S') :
    World.Within S' { W with session := { W.session with nextObject := next }, held := held } where
  coherent := hS'
  held := hheld
  captured v hv := hsub (h.captured v hv)
  globals i g hg name v hv := hsub (h.globals i g hg name v hv)
  threads th hth := (h.threads th hth).mono hsub
  natives := h.natives

/-- With other engines, whose globals are in the coherent set. -/
theorem with_engines {engines : Array Globals} (h : W.Within S)
    (hg : ∀ (i : Nat) (g : Globals), engines[i]? = some g →
      ∀ name v, g.find? name = some v → v ∈ S) :
    World.Within S { W with session := { W.session with engines := engines } } :=
  ⟨h.coherent, h.held, h.captured, hg, h.threads, h.natives⟩

theorem with_threads {threads : List Thread} (h : W.Within S)
    (hth : ∀ th ∈ threads, th.Within S) : World.Within S { W with threads := threads } :=
  ⟨h.coherent, h.held, h.captured, h.globals, hth, h.natives⟩

/-- A thread continues the supplies of its session. -/
theorem state (h : W.Within S) {th : Thread} (hth : th ∈ W.threads) :
    (W.state th).Within W.session.host.natives.size S := by
  have hvalues := h.threads th hth
  refine ⟨h.coherent, hvalues.control, hvalues.stack, hvalues.env, fun name v hv => ?_⟩
  replace hv : (W.session.engines[th.engine]?.getD .empty).find? name = some v := hv
  cases hg : W.session.engines[th.engine]? with
  | some g =>
    rw [hg] at hv
    exact h.globals _ g hg name v hv
  | none =>
    -- An engine that is not there binds nothing.
    rw [hg] at hv
    cases hv

theorem bind (h : W.Within S) (hv : v ∈ S) (engine : Nat) (name : String) :
    World.Within S { W with session := W.session.bind engine name v } := by
  refine h.with_engines fun i g hg other w hw => ?_
  rw [Array.getElem?_modify] at hg
  split at hg
  · obtain ⟨g', hg', rfl⟩ := Option.map_eq_some_iff.1 hg
    rw [Globals.find?_bind] at hw
    split at hw
    · cases hw
      exact hv
    · exact h.globals i g' hg' other w hw
  · exact h.globals i g hg other w hw

theorem keep {S' : Set Value} {before after : List Thread} {th : Thread} {t : State}
    (h : W.Within S) (hthreads : W.threads = before ++ th :: after) (hsub : S ⊆ S')
    (ht : t.Within W.session.host.natives.size S') : (W.keep before after th t).Within S' where
  coherent := ht.coherent
  held v hv := hsub (h.held v hv)
  captured v hv := hsub (h.captured v hv)
  globals i g hg name v hv := by
    replace hg : (W.session.engines.setIfInBounds th.engine t.globals)[i]? = some g := hg
    rw [Array.getElem?_setIfInBounds] at hg
    split at hg
    · split at hg
      · cases hg
        exact ht.globals name v hv
      · cases hg
    · exact hsub (h.globals i g hg name v hv)
  threads other hother := by
    have hothers := h.threads
    rw [hthreads, List.forall_mem_append, List.forall_mem_cons] at hothers
    rw [World.keep, List.mem_append, List.mem_cons] at hother
    rcases hother with hmem | rfl | hmem
    · exact (hothers.1 other hmem).mono hsub
    · exact ⟨ht.control, ht.stack, ht.env⟩
    · exact (hothers.2.2 other hmem).mono hsub
  natives := h.natives

/-- A native is a new object, and what it has captured lives with it. -/
theorem register {f : Native} {captured : List Value} (h : W.Within S)
    (hcap : ∀ v ∈ captured, v ∈ S) (hf : f.Local captured) (engine : Nat) (name : String) :
    ∃ S', S ⊆ S' ∧ World.Within S' { W with
      session := W.session.register engine name f
      captured := captured ++ W.captured } := by
  let made : Value := .native (.hosted W.session.host.natives.size name)
  have hsub := Set.subset_insert made S
  let registered : World := { W with
    session := { W.session with host := (W.session.host.register name f).2 }
    captured := captured ++ W.captured }
  have hregistered : registered.Within (insert made S) := by
    refine ⟨?_, fun v hv => hsub (h.held v hv), ?_,
      fun i g hg name v hv => hsub (h.globals i g hg name v hv),
      fun th hth => (h.threads th hth).mono hsub, fun g hg => ?_⟩
    · have hsize : registered.supplies =
          { W.supplies with natives := W.supplies.natives + 1 } := by
        simp [registered, supplies, Host.register]
      rw [hsize]
      exact h.coherent.native name
    · exact List.forall_mem_append.2
        ⟨fun v hv => hsub (hcap v hv), fun v hv => hsub (h.captured v hv)⟩
    · rcases Array.mem_push.1 hg with hg | rfl
      · exact (h.natives g hg).mono (List.subset_append_right _ _)
      · exact hf.mono (List.subset_append_left _ _)
  exact ⟨_, hsub, hregistered.bind (Set.mem_insert made S) engine name⟩

/-- Whatever happens, the values of the world are in a larger coherent set. -/
theorem act (h : W.Within S) (hact : W.Act W') : ∃ S', S ⊆ S' ∧ W'.Within S' := by
  cases hact with
  | @construct c v s hc hs =>
    obtain ⟨next, hrun, rfl⟩ := Session.alloc_eq_ok_iff.1 hs
    obtain ⟨S', hsub, hS', hv⟩ :=
      Construction.exists_coherent h.coherent (fun u hu => h.has (hc u hu)) hrun
    exact ⟨S', hsub, h.with_held hsub hS'
      (List.forall_mem_cons.2 ⟨hv, fun u hu => hsub (h.held u hu)⟩)⟩
  | @call f args v s ha hs =>
    obtain ⟨next, hrun, rfl⟩ := Session.alloc_eq_ok_iff.1 hs
    obtain ⟨S', hsub, hS', hv⟩ := h.coherent.exists_madeOf
      (List.forall_mem_append.2 ⟨fun u hu => h.has (ha u hu), h.captured⟩)
      (h.natives.behaviour f args _ v next hrun)
    exact ⟨S', hsub, h.with_held hsub hS'
      (List.forall_mem_cons.2 ⟨hv, fun u hu => hsub (h.held u hu)⟩)⟩
  | hold hv =>
    exact ⟨S, subset_rfl,
      h.with_held subset_rfl h.coherent (List.forall_mem_cons.2 ⟨h.has hv, h.held⟩)⟩
  | drop hsub =>
    exact ⟨S, subset_rfl, h.with_held subset_rfl h.coherent fun v hv => h.held v (hsub hv)⟩
  | bind engine name hv => exact ⟨S, subset_rfl, h.bind (h.has hv) engine name⟩
  | @engine g hg =>
    refine ⟨S, subset_rfl, h.with_engines fun i g' hg' name v hv => ?_⟩
    rw [Array.getElem?_push] at hg'
    split at hg'
    · cases hg'
      rcases hg with rfl | rfl | hg
      · cases hv
      · exact Globals.forall_initial (h.coherent.atom rfl) (fun op => h.coherent.atom rfl) hv
      · -- A clone has the globals of the engine that it is made of.
        obtain ⟨j, hj⟩ := Array.getElem?_of_mem hg
        exact h.globals j g hj name v hv
    · exact h.globals i g' hg' name v hv
  | register engine name hcaptured hf =>
    exact h.register (fun v hv => h.has (hcaptured v hv)) hf engine name
  | @begin engine control stack env hengine hcontrol hstack henv =>
    refine ⟨S, subset_rfl, h.with_threads (List.forall_mem_cons.2 ⟨?_, h.threads⟩)⟩
    exact ⟨h.has hcontrol, fun v hv => h.has (hstack v hv), fun v hv => h.has (henv v hv)⟩
  | @step before after th hthreads =>
    have hth : th ∈ W.threads := hthreads ▸ List.mem_append_right before List.mem_cons_self
    obtain ⟨S', hsub, hstep⟩ := (h.state hth).step h.natives h.captured
    exact ⟨S', hsub, h.keep hthreads hsub hstep⟩
  | finish hsub =>
    exact ⟨S, subset_rfl, h.with_threads fun th hth => h.threads th (hsub hth)⟩

end Within

/-- The values of every world are coherent, by induction on what has happened. -/
theorem Reachable.within (h : W.Reachable) : ∃ S, W.Within S := by
  -- A world starts with atoms only.
  have hstart {g : Globals} (hg : ∀ name v, g.find? name = some v → v.key? = none) :
      (start g).Within {v | v.key? = none} := by
    refine ⟨.atoms _, by simp [start], by simp [start], fun i g' hi name v hv => ?_,
      by simp [start], fun f hf => absurd hf (Array.not_mem_empty f)⟩
    replace hi : #[g][i]? = some g' := hi
    obtain rfl : g' = g := by simpa using Array.mem_of_getElem? hi
    exact hg name v hv
  induction h with
  | empty => exact ⟨_, hstart (by rintro name v ⟨⟩)⟩
  | initial =>
    exact ⟨_, hstart fun _ _ => Globals.forall_initial (P := (·.key? = none)) rfl fun _ => rfl⟩
  | act _ hact ih =>
    obtain ⟨S, hS⟩ := ih
    obtain ⟨S', _, hS'⟩ := hS.act hact
    exact ⟨S', hS'⟩

/-- All references to natives of the host that a thread comes across were given out by
    registrations, so an error that a call raises is one of a native that was registered. -/
theorem Reachable.exists_native_of_raises (h : W.Reachable) {th : Thread} (hth : th ∈ W.threads)
    {e : Error} (he : (W.state th).Raises W.session.host e) :
    ∃ index name args f, (W.state th).Calls (.native (.hosted index name)) args ∧
      W.session.host.natives[index]? = some f ∧ f args W.session.nextObject = .error e := by
  obtain ⟨S, hS⟩ := h.within
  have hstate := hS.state hth
  obtain ⟨r, args, hcalls, _, hraises⟩ := he
  cases hraises with
  | registered hf hfails => exact ⟨_, _, args, _, hcalls, hf, hfails⟩
  | @unregistered index name hnone =>
    have hspent : index < W.session.host.natives.size :=
      hstate.coherent.spent (hstate.stack _ hcalls.mem_stack.1) (k := .native index) rfl
    rw [Array.getElem?_eq_getElem hspent] at hnone
    cases hnone

/-- The runs of a session are made of steps: wherever a thread comes to, also behind steps
    that fail, the session can take over what it leaves. -/
theorem Reachable.keep (h : W.Reachable) {before after : List Thread} {th : Thread} {t : State}
    (hthreads : W.threads = before ++ th :: after)
    (hengine : th.engine < W.session.engines.size)
    (ht : Reached W.session.host (W.state th) t) : (W.keep before after th t).Reachable := by
  -- What is left before the first step is what the world has.
  have hrefl : W.keep before after th (W.state th) = W := by
    have hengines : W.session.engines.setIfInBounds th.engine (W.session.globals th.engine) =
        W.session.engines := by
      simp [Session.globals, Array.setIfInBounds, hengine]
    simp [World.keep, World.state, Session.keep, Session.state, hengines, ← hthreads]
  -- From what a state leaves, the thread makes the step of this state.
  have hstep {s : State} (hs : (W.keep before after th s).Reachable) :
      (W.keep before after th (State.after (s.step W.session.host))).Reachable := by
    let th' : Thread := ⟨th.engine, s.control, s.stack, s.env⟩
    have hstate : (W.keep before after th s).state th' = s := by
      simp [World.keep, World.state, Session.keep, Session.state, Session.globals, th', hengine]
    have hact : Act (W.keep before after th s) ((W.keep before after th s).keep before after th'
        (State.after (((W.keep before after th s).state th').step W.session.host))) := .step rfl
    have hnext := hs.act hact
    rw [hstate] at hnext
    simpa [World.keep, Session.keep, th'] using hnext
  induction ht with
  | start => exact hrefl.symm ▸ h
  | ok _ hst ih => simpa [hst, State.after] using hstep ih
  | failed _ hst ih => simpa [hst, State.after] using hstep ih

end World

end ConsMachine
