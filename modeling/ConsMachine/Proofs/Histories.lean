import ConsMachine.Proofs.Bindings
import ConsMachine.Session

/-!
# Histories of engines

What an engine answers about its globals depends only on what was bound in it, and in
which order. A host does all kinds of things with its engines (`Operation`): it binds
globals, registers natives, runs programs, which end, fail, or are given up, and adds
engines, also clones of others. A *ledger* is kept beside them, with the bindings made in
each engine one behind the other: those of the host, and those of the runs, which are
the `set-global` instructions that were executed (`State.bound`). A clone takes over the
entries of the engine that it is made of.

The globals of an engine are at any time what comes out when the entries are bound one
after another (`Session.Follows.performAll`). So the last entry for a name is the value of
the global, no global is ever lost, and the listing has each name once, in the order of the
bytes (`Session.last_binding_wins`). An operation on one engine makes no entries for others.

What is entered for a native that was registered is a reference. No operation takes a native
away from the host again, so the reference stands for this native ever after
(`Session.behaviour_performAll`).
-/

namespace ConsMachine

/-! ### Operations -/

/-- What a host does with its engines. -/
inductive Operation where
  | bind (engine : Nat) (name : String) (v : Value)
  /-- Register a native, typed or not. -/
  | register (engine : Nat) (name : String) (f : Native)
  /-- Run a program until it ends or fails, or for at most `limit` steps. -/
  | run (engine : Nat) (control : Value) (stack env : List Value) (limit : Nat)
  /-- Read a text, build a value, call a native: whatever makes objects. -/
  | make (a : Alloc Value)
  /-- Add an engine that binds nothing. -/
  | addEmpty
  /-- Add an engine that binds what engines start with. -/
  | addInitial
  | clone (engine : Nat)

/-- The engine whose globals an operation may change. -/
def Operation.engine? : Operation → Option Nat
  | bind engine .. | register engine .. | run engine .. => some engine
  | make _ | addEmpty | addInitial | clone _ => none

/-- The bindings made in each engine, from the first on. -/
abbrev Ledger := Array (List (String × Value))

namespace Ledger

/-- The bindings made in an engine. -/
def entries (l : Ledger) (engine : Nat) : List (String × Value) :=
  l[engine]?.getD []

/-- Enter further bindings. -/
def enter (l : Ledger) (engine : Nat) (ws : List (String × Value)) : Ledger :=
  l.modify engine (· ++ ws)

end Ledger

namespace Session

/-- A session before its first engine. With `addInitial` or `addEmpty` it comes to the
    sessions that hosts start. -/
def bare : Session :=
  ⟨.bare, #[], 0, 0⟩

/-- The session after an operation. A run leaves its globals also if it fails or is given up,
    and a build that fails leaves nothing. -/
def perform (s : Session) : Operation → Session
  | .bind engine name v => s.bind engine name v
  | .register engine name f => s.register engine name f
  | .run engine control stack env limit =>
    s.keep engine ((s.state engine control stack env).run s.host limit).left
  | .make a =>
    match s.alloc a with
    | .ok (_, t) => t
    | .error _ => s
  | .addEmpty => s.addEngine .empty
  | .addInitial => s.addEngine .initial
  | .clone engine => s.addEngine (s.globals engine)

/-- Enter what an operation binds. -/
def record (s : Session) (l : Ledger) : Operation → Ledger
  | .bind engine name v => l.enter engine [(name, v)]
  | .register engine name f => l.enter engine [(name, .native (s.host.register name f).1)]
  | .run engine control stack env limit =>
    l.enter engine ((s.state engine control stack env).bound s.host limit)
  | .make _ => l
  | .addEmpty => l.push []
  | .addInitial => l.push Globals.initialBindings
  | .clone engine => l.push (l.entries engine)

/-- The session after one operation behind the other. -/
def performAll (s : Session) : List Operation → Session
  | [] => s
  | op :: ops => (s.perform op).performAll ops

/-- The ledger after one operation behind the other. -/
def recordAll (s : Session) (l : Ledger) : List Operation → Ledger
  | [] => l
  | op :: ops => (s.perform op).recordAll (s.record l op) ops

variable {s : Session} {l : Ledger}

/-- The globals of every engine are what comes of its entries. -/
def Follows (s : Session) (l : Ledger) : Prop :=
  s.engines = l.map Globals.empty.bindAll

theorem Follows.globals_eq (h : s.Follows l) (engine : Nat) :
    s.globals engine = Globals.empty.bindAll (l.entries engine) := by
  rw [globals, h, Array.getElem?_map, Ledger.entries]
  cases l[engine]? <;> rfl

/-- Entries and globals are changed together. -/
theorem Follows.modify (h : s.Follows l) (engine : Nat) (ws : List (String × Value)) :
    s.engines.modify engine (fun g => g.bindAll ws) =
      (l.enter engine ws).map Globals.empty.bindAll := by
  rw [h, Ledger.enter]
  refine Array.ext_getElem? fun i => ?_
  simp only [Array.getElem?_modify, Array.getElem?_map]
  split <;> cases l[i]? <;> simp [Globals.bindAll_append]

/-- What a run leaves are the globals of its engine, with its bindings. -/
theorem engines_keep (s : Session) (engine : Nat) {t : State} {ws : List (String × Value)}
    (ht : t.globals = (s.globals engine).bindAll ws) :
    (s.keep engine t).engines = s.engines.modify engine fun g => g.bindAll ws := by
  refine Array.ext_getElem? fun i => ?_
  simp only [keep, ht, globals, Array.getElem?_setIfInBounds, Array.getElem?_modify]
  by_cases hi : engine = i
  · subst hi
    by_cases hlt : engine < s.engines.size <;> simp [hlt]
  · simp [hi]

/-- Operations enter what they bind. -/
theorem Follows.perform (h : s.Follows l) (op : Operation) :
    (s.perform op).Follows (s.record l op) := by
  cases op with
  | bind engine name v => exact h.modify engine [(name, v)]
  | register engine name f => exact h.modify engine [(name, .native (s.host.register name f).1)]
  | run engine control stack env limit =>
    have hkeep := s.engines_keep engine (State.globals_left_run s.host limit
      (s.state engine control stack env))
    exact hkeep.trans (h.modify engine _)
  | make a =>
    simp only [Session.perform, record, alloc]
    cases a s.nextObject <;> exact h
  | addEmpty =>
    rw [Follows, record, Array.map_push, ← h]
    rfl
  | addInitial =>
    rw [Follows, record, Array.map_push, ← h, Globals.bindAll_initialBindings]
    rfl
  | clone engine =>
    rw [Follows, record, Array.map_push, ← h, ← h.globals_eq]
    rfl

theorem Follows.performAll (h : s.Follows l) (ops : List Operation) :
    (s.performAll ops).Follows (s.recordAll l ops) := by
  induction ops generalizing s l with
  | nil => exact h
  | cons op ops ih => exact ih (h.perform op)

theorem follows_bare : bare.Follows #[] :=
  (Array.map_empty).symm

/-! ### One engine among others -/

variable {engine : Nat}

/-- An engine that is there stays, and an operation only binds globals of it. -/
theorem exists_bindAll_perform (h : engine < s.engines.size) (op : Operation) :
    engine < (s.perform op).engines.size ∧
      ∃ ws, (s.perform op).globals engine = (s.globals engine).bindAll ws ∧
        (op.engine? ≠ some engine → ws = []) := by
  -- The engines before a new one are the same.
  have hadd (g : Globals) : engine < (s.addEngine g).engines.size ∧
      (s.addEngine g).globals engine = s.globals engine := by
    refine ⟨by rw [addEngine, Array.size_push]; omega, ?_⟩
    rw [addEngine, globals, globals, Array.getElem?_push_lt h, Array.getElem?_eq_getElem h]
  -- Bindings that are made in one engine are made in no other.
  have hmodify {t : Session} {i : Nat} (ws : List (String × Value))
      (ht : t.engines = s.engines.modify i fun g => g.bindAll ws) :
      engine < t.engines.size ∧ ∃ ws', t.globals engine = (s.globals engine).bindAll ws' ∧
        (some i ≠ some engine → ws' = []) := by
    refine ⟨by simpa [ht] using h, if i = engine then ws else [], ?_, fun hne => ?_⟩
    · simp only [globals, ht, Array.getElem?_modify]
      split <;> simp [h]
    · exact if_neg fun heq => hne (congrArg some heq)
  cases op with
  | bind i name v => exact hmodify [(name, v)] rfl
  | register i name f => exact hmodify [(name, .native (s.host.register name f).1)] rfl
  | run i control stack env limit =>
    exact hmodify _ (s.engines_keep i (State.globals_left_run s.host limit _))
  | make a =>
    simp only [Session.perform, alloc]
    cases a s.nextObject <;> exact ⟨h, [], rfl, fun _ => rfl⟩
  | addEmpty => exact ⟨(hadd .empty).1, [], (hadd .empty).2, fun _ => rfl⟩
  | addInitial => exact ⟨(hadd .initial).1, [], (hadd .initial).2, fun _ => rfl⟩
  | clone i => exact ⟨(hadd (s.globals i)).1, [], (hadd (s.globals i)).2, fun _ => rfl⟩

theorem exists_bindAll_performAll (h : engine < s.engines.size) (ops : List Operation) :
    ∃ ws, (s.performAll ops).globals engine = (s.globals engine).bindAll ws ∧
      ((∀ op ∈ ops, op.engine? ≠ some engine) → ws = []) := by
  induction ops generalizing s with
  | nil => exact ⟨[], rfl, fun _ => rfl⟩
  | cons op ops ih =>
    obtain ⟨hsize, ws, hws, hnil⟩ := exists_bindAll_perform h op
    obtain ⟨xs, hxs, hnil'⟩ := ih hsize
    refine ⟨ws ++ xs, ?_, fun hops => ?_⟩
    · rw [performAll, hxs, hws, Globals.bindAll_append]
    · rw [List.forall_mem_cons] at hops
      rw [hnil hops.1, hnil' hops.2, List.append_nil]

/-- No global is lost. -/
theorem isSome_find?_performAll (ops : List Operation)
    (hname : ((s.globals engine).find? name).isSome) :
    (((s.performAll ops).globals engine).find? name).isSome := by
  have hengine : engine < s.engines.size := by
    by_contra hle
    rw [globals, Array.getElem?_eq_none (by omega)] at hname
    cases hname
  obtain ⟨ws, hws, _⟩ := exists_bindAll_performAll hengine ops
  rw [hws, Globals.find?_bindAll, Option.isSome_or, hname, Bool.or_true]

/-- Operations on other engines change nothing. -/
theorem globals_performAll_of_ne {ops : List Operation} (hengine : engine < s.engines.size)
    (h : ∀ op ∈ ops, op.engine? ≠ some engine) :
    (s.performAll ops).globals engine = s.globals engine := by
  obtain ⟨ws, hws, hnil⟩ := exists_bindAll_performAll hengine ops
  rw [hws, hnil h, Globals.bindAll_nil]

/-- A clone is a new engine, with the globals of the other. -/
theorem globals_clone (s : Session) (engine : Nat) :
    (s.perform (.clone engine)).globals s.engines.size = s.globals engine := by
  rw [perform, addEngine, globals, Array.getElem?_push_size, Option.getD_some]

/-! ### Natives among others -/

variable {index : Nat}

/-- A native that is there stays. -/
theorem behaviour_perform (h : index < s.host.natives.size) (name : String) (op : Operation) :
    index < (s.perform op).host.natives.size ∧
      (s.perform op).host.behaviour (.hosted index name) =
        s.host.behaviour (.hosted index name) := by
  cases op with
  | register engine other f =>
    refine ⟨?_, Host.behaviour_register_of_lt h other name f⟩
    exact (Nat.lt_succ_of_lt h).trans_eq (Array.size_push f).symm
  | make a =>
    simp only [perform, alloc]
    cases a s.nextObject <;> exact ⟨h, rfl⟩
  | bind | run | addEmpty | addInitial | clone => exact ⟨h, rfl⟩

theorem behaviour_performAll (h : index < s.host.natives.size) (name : String)
    (ops : List Operation) :
    (s.performAll ops).host.behaviour (.hosted index name) =
      s.host.behaviour (.hosted index name) := by
  induction ops generalizing s with
  | nil => rfl
  | cons op ops ih =>
    obtain ⟨hsize, hop⟩ := behaviour_perform h name op
    exact (ih hsize).trans hop

/-- Whatever is done later, the reference that a registration makes stands for what was
    registered. -/
theorem behaviour_performAll_register (s : Session) (engine : Nat) (name : String) (f : Native)
    (ops : List Operation) :
    ((s.perform (.register engine name f)).performAll ops).host.behaviour
      (s.host.register name f).1 = f := by
  have hsize : s.host.natives.size <
      (s.perform (.register engine name f)).host.natives.size :=
    (Nat.lt_succ_self _).trans_eq (Array.size_push f).symm
  exact (behaviour_performAll hsize name ops).trans (Host.behaviour_register s.host name f)

theorem performAll_append (s : Session) (ops later : List Operation) :
    s.performAll (ops ++ later) = (s.performAll ops).performAll later := by
  induction ops generalizing s with
  | nil => rfl
  | cons op ops ih => exact ih (s.perform op)

/-- The last binding of a name wins, whatever happened: bindings by the host, natives that
    were registered, and runs, with the bindings that were made before a run failed.

    * Looking up a global gives the last value that was entered for it, and no value, or the
      error that says so, if there was none.
    * A global that is bound stays bound.
    * What is entered for a native that was registered stands for this native in the host that
      the operations come to.
    * The listing has the names with an entry and the last values entered for them, in the
      order of the bytes of the names, so each name once.
    * A clone starts with the globals of its engine. What is done with the clone changes none
      of them in the engine, nor the other way round. -/
theorem last_binding_wins (ops : List Operation) (engine : Nat) :
    let s := bare.performAll ops
    let last := (((bare.recordAll #[] ops).entries engine).reverse.lookup ·)
    (∀ name, (s.globals engine).find? name = last name ∧
        (s.globals engine).get name =
          match last name with
          | some v => .ok v
          | none => .error (.unbound name)) ∧
      (∀ name later, ((s.globals engine).find? name).isSome →
        (((s.performAll later).globals engine).find? name).isSome) ∧
      (∀ before after i name f, ops = before ++ .register i name f :: after →
        s.host.behaviour ((bare.performAll before).host.register name f).1 = f) ∧
      (∀ name v, (name, v) ∈ (s.globals engine).bindings ↔ last name = some v) ∧
      ((s.globals engine).bindings.map fun b => utf8 b.1).Pairwise (· < ·) ∧
      (engine < s.engines.size →
        let cloned := s.perform (.clone engine)
        let clone := s.engines.size
        cloned.globals clone = s.globals engine ∧
          ∀ later,
            ((∀ op ∈ later, op.engine? ≠ some engine) →
              (cloned.performAll later).globals engine = s.globals engine) ∧
            ((∀ op ∈ later, op.engine? ≠ some clone) →
              (cloned.performAll later).globals clone = s.globals engine)) := by
  intro s last
  have hfind (name : String) : (s.globals engine).find? name = last name := by
    rw [(follows_bare.performAll ops).globals_eq, Globals.find?_bindAll, Globals.find?_empty,
      Option.or_none]
  refine ⟨fun name => ⟨hfind name, ?_⟩, fun name later => isSome_find?_performAll later,
    fun before after i name f hops => ?_, fun name v => ?_, Globals.pairwise_utf8 _,
    fun hengine => ?_⟩
  · cases hl : last name <;> simp only [Globals.get, hfind, hl]
  · have hs : s = ((bare.performAll before).perform (.register i name f)).performAll after := by
      rw [← performAll, ← performAll_append, ← hops]
    rw [hs]
    exact behaviour_performAll_register _ i name f after
  · rw [Globals.mem_bindings_iff, hfind]
  · intro cloned clone
    have hclone : cloned.globals clone = s.globals engine := s.globals_clone engine
    have hsize : cloned.engines.size = s.engines.size + 1 := Array.size_push _
    have hnone : ∀ op ∈ [Operation.clone engine], op.engine? ≠ some engine := by
      simp [Operation.engine?]
    have hsame : cloned.globals engine = s.globals engine :=
      globals_performAll_of_ne hengine hnone
    refine ⟨hclone, fun later => ⟨fun h => ?_, fun h => ?_⟩⟩
    · exact (globals_performAll_of_ne (by omega) h).trans hsame
    · exact (globals_performAll_of_ne (by omega) h).trans hclone

open Instruction in
/-- A binding of a run that failed, one that was made in a clone only, and a native that two
    engines know by its name. -/
theorem last_binding_wins_clone :
    let program := (encodeAll [push (.number 2), setGlobal "é", pop, pop] 0).1
    let seven : Native := fun _ next => .ok (.number 7, next)
    let before : List Operation := [.addEmpty, .bind 0 "é" (.number 1), .bind 0 "z" .nil]
    let after : List Operation := [.run 0 program [] [] 9]
    let ops := before ++ .register 0 "seven" seven :: after
    let later : List Operation := [.bind 1 "é" (.number 3)]
    let s := bare.performAll ops
    let t := (s.perform (.clone 0)).performAll later
    (0 < s.engines.size ∧ ((s.globals 0).find? "é").isSome ∧
        ∀ op ∈ later, op.engine? ≠ some 0) ∧
      (s.globals 0).get "é" = .ok (.number 2) ∧ (s.globals 0).get "y" = .error (.unbound "y") ∧
      ((s.performAll later).globals 0).find? "é" ≠ none ∧
      (s.globals 0).get "seven" = .ok (.native (.hosted 0 "seven")) ∧
      s.host.behaviour (.hosted 0 "seven") = seven ∧
      t.globals 0 = s.globals 0 ∧ (t.globals 1).find? "é" = some (.number 3) := by
  intro program seven before after ops later s t
  have hsize : 0 < s.engines.size := by decide
  have hname : ((s.globals 0).find? "é").isSome := rfl
  have hlater : ∀ op ∈ later, op.engine? ≠ some 0 := by simp [later, Operation.engine?]
  obtain ⟨hfind, hsome, hnative, _, _, hclone⟩ := last_binding_wins ops 0
  refine ⟨⟨hsize, hname, hlater⟩, (hfind "é").2.trans rfl, (hfind "y").2.trans rfl, ?_,
    (hfind "seven").2.trans rfl, hnative before after 0 "seven" seven rfl, ?_, rfl⟩
  · exact Option.isSome_iff_ne_none.1 (hsome "é" later hname)
  · exact ((hclone hsize).2 later).1 hlater

end Session

end ConsMachine
