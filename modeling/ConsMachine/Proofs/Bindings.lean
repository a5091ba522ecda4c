import Mathlib.Data.List.Nodup
import ConsMachine.Proofs.ByteOrder
import ConsMachine.Proofs.Failure

/-!
# Bindings

Globals are bound one after another (`Globals.bindAll`): the last value bound to a name is the
one that is found (`Globals.find?_bindAll`), and the listing has the globals that are found
(`Globals.mem_bindings_iff`), in the order of the bytes of their names.

In a run it is the `set-global` instructions that bind, where they find a value on the stack.
What a run leaves are the globals that it started with and these bindings, also if the run fails
or is given up (`State.globals_left_run`).
-/

namespace ConsMachine

variable {host : Host} {s t : State} {n : Nat} {name : String} {v : Value}

/-! ### Bindings, one after another -/

namespace Globals

/-- Bind one global after another. -/
def bindAll (g : Globals) (ws : List (String × Value)) : Globals :=
  ws.foldl (fun g w => g.bind w.1 w.2) g

@[simp] theorem bindAll_nil (g : Globals) : g.bindAll [] = g := rfl

@[simp] theorem bindAll_cons (g : Globals) (w : String × Value) (ws : List (String × Value)) :
    g.bindAll (w :: ws) = (g.bind w.1 w.2).bindAll ws := rfl

theorem bindAll_append (g : Globals) (ws xs : List (String × Value)) :
    g.bindAll (ws ++ xs) = (g.bindAll ws).bindAll xs :=
  List.foldl_append

/-- What an engine that is not empty starts with. -/
def initialBindings : List (String × Value) :=
  (applyName, .apply) :: Builtin.all.map fun op => (op.name, .native (.builtin op))

theorem bindAll_initialBindings : empty.bindAll initialBindings = initial := by
  rw [initialBindings, bindAll_cons, bindAll, List.foldl_map, initial]

/-- The last value bound to a name is the one that is found. -/
theorem find?_bindAll (g : Globals) (ws : List (String × Value)) (name : String) :
    (g.bindAll ws).find? name = (ws.reverse.lookup name).or (g.find? name) := by
  induction ws generalizing g with
  | nil => rfl
  | cons w ws ih =>
    have hw : List.lookup name [w] = if w.1 = name then some w.2 else none := by
      rw [List.lookup_cons, List.lookup_nil]
      by_cases hname : name = w.1
      · simp [hname]
      · simp [beq_false_of_ne hname, Ne.symm hname]
    rw [bindAll_cons, ih, find?_bind, List.reverse_cons, List.lookup_append, hw, Option.or_assoc]
    split <;> rfl

/-- The listing has the globals that are found. -/
theorem mem_bindings_iff {g : Globals} : (name, v) ∈ g.bindings ↔ g.find? name = some v := by
  have hnodup : (g.bindings.map Prod.fst).Nodup := by
    refine List.pairwise_map.2 (g.inOrder.imp fun {b c} hlt heq => ?_)
    rw [heq] at hlt
    exact String.lt_irrefl _ hlt
  rw [find?, Option.map_eq_some_iff]
  constructor
  · intro h
    cases hfind : g.bindings.find? fun b => b.1 = name with
    | none => exact absurd (List.find?_eq_none.1 hfind _ h) (by simp)
    | some b =>
      -- Another binding of the name would stand in the list twice.
      have hname : b.1 = name := by simpa using List.find?_some hfind
      have heq := List.inj_on_of_nodup_map hnodup (List.mem_of_find?_eq_some hfind) h hname
      exact ⟨b, rfl, by rw [heq]⟩
  · rintro ⟨b, hfind, rfl⟩
    have hname : b.1 = name := by simpa using List.find?_some hfind
    rw [← hname]
    exact List.mem_of_find?_eq_some hfind

/-- The names of the listing are in the order of their bytes. -/
theorem pairwise_utf8 (g : Globals) :
    (g.bindings.map fun b => utf8 b.1).Pairwise (· < ·) :=
  List.pairwise_map.2 (g.inOrder.imp utf8_lt_utf8)

end Globals

/-! ### The bindings of a run -/

/-- What a run leaves, however it comes out. -/
def Outcome.left : Outcome → State
  | .finished s => s
  | .failed stop => stop.left
  | .unfinished s => s

/-- What an instruction binds: a `set-global` that finds a value on the stack. -/
def Instruction.binding? : Instruction → List Value → Option (String × Value)
  | setGlobal name, v :: _ => some (name, v)
  | _, _ => none

namespace State

/-- What the next step binds. -/
def binding? (s : State) : Option (String × Value) :=
  match s.control with
  | .pair _ form _ =>
    match Instruction.decode form with
    | .ok i => i.binding? s.stack
    | .error _ => none
  | _ => none

/-- The states in which a run of at most `n` steps makes a step. -/
def visited (host : Host) : Nat → State → List State
  | 0, _ => []
  | n + 1, s =>
    if s.isDone then []
    else
      s :: match s.step host with
        | .ok t => visited host n t
        | .error _ => []

/-- The bindings of a run, in order. -/
def bound (host : Host) (n : Nat) (s : State) : List (String × Value) :=
  (s.visited host n).filterMap binding?

theorem globals_execute {p : Saving} {i : Instruction} (h : execute p host s i = .ok t) :
    t.globals = s.globals.bindAll (i.binding? s.stack).toList := by
  cases i with
  | setGlobal name =>
    simp only [execute] at h
    split at h
    · rename_i hs
      cases h
      rw [hs]
      rfl
    · cases h
  | call count =>
    simp only [execute] at h
    split at h
    · have hglobals := globals_call h
      exact hglobals
    · cases h
  | push | closure => cases h; rfl
  | pop | access | getGlobal =>
    simp only [execute] at h
    split at h <;> cases h
    rfl
  | branch =>
    simp only [execute] at h
    split at h <;> cases h
    exact save_globals p _

/-- An instruction that fails would have bound nothing. -/
theorem binding?_of_execute_error {p : Saving} {i : Instruction} {stop : Stop}
    (h : execute p host s i = .error stop) : i.binding? s.stack = none := by
  cases i with
  | setGlobal name =>
    cases hs : s.stack with
    | nil => rfl
    | cons v below =>
      simp only [execute, hs] at h
      cases h
  | _ => rfl

/-- A step binds nothing but what its instruction says. -/
theorem globals_step_ok (h : s.step host = .ok t) :
    t.globals = s.globals.bindAll s.binding?.toList := by
  have hd : s.isDone = false := (Steps.single (p := .unlessDone) h).isDone_eq_false
  rw [step, stepWith, if_neg (by simp [hd])] at h
  unfold binding?
  split at h
  · rename_i hc
    rw [hc]
    unfold resume at h
    split at h <;> cases h
    rfl
  · rename_i id form rest hc
    split at h
    · rename_i i hi
      have hglobals := globals_execute h
      simp only [hc, hi]
      exact hglobals
    · cases h
  · cases h

theorem globals_step_error {stop : Stop} (h : s.step host = .error stop) :
    stop.left.globals = s.globals.bindAll s.binding?.toList := by
  have hnone : s.binding? = none := by
    unfold binding?
    split
    · rename_i id form rest hc
      split
      · rename_i i hi
        rw [step, stepWith_of_decode hc hi] at h
        have hbinding := binding?_of_execute_error h
        exact hbinding
      · rfl
    · rfl
  rw [hnone]
  exact (consumed_of_stepWith h).globals

/-- A run binds what its `set-global` instructions bind, also if it fails. -/
theorem globals_left_run (host : Host) (n : Nat) (s : State) :
    (s.run host n).left.globals = s.globals.bindAll (s.bound host n) := by
  induction n generalizing s with
  | zero =>
    unfold run
    split <;> rfl
  | succ n ih =>
    cases hd : s.isDone with
    | true =>
      rw [run_of_isDone hd, bound, visited, if_pos hd]
      rfl
    | false =>
      have hbound : s.bound host (n + 1) = s.binding?.toList ++
          match s.step host with
          | .ok t => t.bound host n
          | .error _ => [] := by
        rw [bound, visited, if_neg (by simp [hd]), List.filterMap_cons]
        cases s.binding? <;> cases s.step host <;> rfl
      rw [hbound, Globals.bindAll_append]
      cases hs : s.step host with
      | ok t => rw [run_succ_of_ok hs, ih, globals_step_ok hs]
      | error stop =>
        rw [run_succ_of_error hd hs]
        exact globals_step_error hs

end State

end ConsMachine
