import Mathlib
import ConsMachine.Proofs.FirstOrder

/-!
# Programs that terminate

First-order programs terminate (`firstOrder_terminates`): such a program comes to each of
its instructions once at most, and ends after no more than twice as many steps as it has
instructions, and one.

The program shortens with each instruction, but resuming a continuation makes it longer
again, and continuations are values that the program can keep. What bounds the run is that
none is ever doubled: the sites that the run has come to and those that lie ahead of it, at
hand or in some continuation on the stack, are always different sites of the program
(`Along`).
-/

namespace ConsMachine

/-! ### Sites ahead -/

namespace State

variable {host : Host} {s t : State}

/-- The sites that lie ahead, at hand or in continuations on the stack. -/
def ahead (s : State) (place : Place) : List Site :=
  s.control.sites place.here ++ s.waiting.flatMap (Value.savedSites place.saved)

/-- The site whose turn it is lies ahead. -/
theorem site?_sublist_ahead (s : State) (place : Place) :
    (s.site? place).toList.Sublist (s.ahead place) := by
  unfold site? dispatched? ahead
  split
  · rename_i id form rest hc
    rw [hc]
    exact ((List.nil_sublist _).cons_cons _).trans
      (Value.sites_rest_sublist.trans (List.sublist_append_left _ _))
  · exact List.nil_sublist _

/-- Less code on the stack leads to fewer sites. -/
theorem subperm_savedSites {l l' : List Value} (h : l.Subperm l') (saved : Nat → List Turn) :
    (l.flatMap (Value.savedSites saved)).Subperm (l'.flatMap (Value.savedSites saved)) := by
  obtain ⟨_, hperm, hsub⟩ := h
  exact (hperm.flatMap_right _).symm.subperm.trans (hsub.flatMap _).subperm

/-- A step has entered a block of a branch, and has saved the instructions after it, unless
    there are none. -/
structure Enters (rest a b test : Value) (below new : List Value) (s t : State) : Prop where
  stack : s.stack = test :: below
  control : t.control = if test.isTrue then a else b
  env : t.env = s.env
  globals : t.globals = s.globals
  waiting : t.waiting = new ++ below.flatMap Value.coded
  nextContinuation : t.nextContinuation = s.nextContinuation + new.length
  new_eq : new = [] ∧ rest = .nil ∨ new = [.continuation s.nextContinuation rest s.env]

theorem exists_enters {id : Nat} {form rest a b : Value} (hc : s.control = .pair id form rest)
    (hform : Instruction.decode form = .ok (.branch a b)) (ht : s.step host = .ok t) :
    ∃ test below new, Enters rest a b test below new s t := by
  rw [step, stepWith_of_decode hc hform] at ht
  simp only [execute] at ht
  split at ht
  · rename_i test below hstack
    cases ht
    -- Nothing is saved exactly if no instruction is left.
    generalize hu : save .unlessDone { s with control := rest, stack := below } = u
    rw [save] at hu
    split at hu
    · rename_i hdone
      subst hu
      have hrest : rest = .nil := Value.isNil_iff.1 hdone.2
      exact ⟨test, below, [], hstack, rfl, rfl, rfl, rfl, rfl, .inl ⟨rfl, hrest⟩⟩
    · subst hu
      exact ⟨test, below, _, hstack, rfl, rfl, rfl, rfl, rfl, .inr rfl⟩
  · cases ht

namespace Enters

variable {rest a b test : Value} {below new : List Value}

theorem below_sublist (h : Enters rest a b test below new s t) :
    (below.flatMap Value.coded).Sublist s.waiting := by
  rw [State.waiting, h.stack]
  exact (List.sublist_cons_self test below).flatMap _

theorem length_waiting_le (h : Enters rest a b test below new s t) :
    t.waiting.length ≤ s.waiting.length + 1 := by
  have hbelow := h.below_sublist.length_le
  rw [h.waiting, List.length_append]
  rcases h.new_eq with ⟨rfl, _⟩ | rfl
  · rw [List.length_nil]
    omega
  · rw [List.length_singleton]
    omega

theorem firstOrder (h : Enters rest a b test below new s t) (hs : s.FirstOrder) :
    t.FirstOrder where
  env := h.env ▸ hs.env
  globals := h.globals ▸ hs.globals
  waiting w hw := by
    rw [h.nextContinuation]
    rw [h.waiting, List.mem_append] at hw
    rcases hw with hw | hw
    · rcases h.new_eq with ⟨rfl, _⟩ | rfl
      · cases hw
      · exact ⟨_, _, _, List.mem_singleton.1 hw, Nat.lt_succ_self _, hs.env⟩
    · obtain ⟨id, control, env, hw, hid, henv⟩ := hs.waiting w (h.below_sublist.subset hw)
      exact ⟨id, control, env, hw, Nat.lt_add_right _ hid, henv⟩

/-- The new continuation leads to the instructions after the branch, and the others where
    they led before. -/
theorem savedSites (h : Enters rest a b test below new s t) (hs : s.FirstOrder) (place : Place) :
    t.waiting.flatMap (Value.savedSites (place.enter test.isTrue s.nextContinuation).saved) =
      rest.sites (place.here ++ [.next]) ++
        (below.flatMap Value.coded).flatMap (Value.savedSites place.saved) := by
  rw [h.waiting, List.flatMap_append]
  -- The way of the new continuation is that to the next instruction. All others are older, so
  -- their ways are as before.
  congr 1
  · rcases h.new_eq with ⟨rfl, rfl⟩ | rfl
    · exact (Value.sites_of_not_isPair rfl).symm
    · rw [List.flatMap_singleton, Value.savedSites, place.saved_enter_self]
  · refine List.flatMap_congr fun w hw => ?_
    obtain ⟨id, control, env, rfl, hid, _⟩ := hs.waiting w (h.below_sublist.subset hw)
    rw [Value.savedSites, Value.savedSites, place.saved_enter_of_ne _ (Nat.ne_of_lt hid)]

/-- The sites of the other block are left behind. -/
theorem ahead_subperm (h : Enters rest a b test below new s t) (hs : s.FirstOrder) {id : Nat}
    {form : Value} (hc : s.control = .pair id form rest)
    (hform : Instruction.decode form = .ok (.branch a b)) (place : Place) :
    ((place.here, form) :: t.ahead (place.enter test.isTrue s.nextContinuation)).Subperm
      (s.ahead place) := by
  have hblock : (t.control.sites (place.here ++ [.inside test.isTrue])).Sublist
      (a.sites (place.here ++ [.inside true]) ++ b.sites (place.here ++ [.inside false])) := by
    rw [h.control]
    cases test.isTrue with
    | true => exact List.sublist_append_left _ _
    | false => exact List.sublist_append_right _ _
  rw [ahead, ahead, hc, Value.sites_of_branch hform, h.savedSites hs, ← List.append_assoc,
    ← List.cons_append]
  refine List.Subperm.append ((List.subperm_cons _).2 ?_)
    (subperm_savedSites h.below_sublist.subperm place.saved)
  exact List.perm_append_comm.subperm.trans ((List.subperm_append_left _).2 hblock.subperm)

end Enters

/-- Resuming a continuation takes it off the stack. -/
theorem exists_of_resume (hc : s.control = .nil) (ht : s.step host = .ok t) :
    ∃ v id control env below, s.stack = v :: .continuation id control env :: below ∧
      t = { s with control := control, env := env, stack := v :: below } := by
  rw [step, stepWith] at ht
  split at ht
  · cases ht
  · simp only [hc, State.resume] at ht
    split at ht
    · rename_i v id control env below hstack
      cases ht
      exact ⟨v, id, control, env, below, hstack, rfl⟩
    · cases ht
    · cases ht
    · cases ht

end State

/-- A run of a first-order program is on its way: it has made `n` steps and has visited some
    sites. These and the ones ahead are different sites of the program; and it has made no
    more than two steps for each site that it has visited, if resuming the continuations on
    the stack is counted beforehand. -/
structure Along (program : Value) (visited : List Site) (place : Place) (n : Nat) (s : State) :
    Prop where
  firstOrder : s.FirstOrder
  sites : (visited ++ s.ahead place).Subperm (program.sites [])
  count : n + s.waiting.length ≤ 2 * visited.length

namespace Along

variable {program : Value} {visited : List Site} {place : Place} {n : Nat} {s t : State}
  {host : Host}

theorem start {env : List Value} (henv : ∀ v ∈ env, v.coded = []) (program : Value)
    (next nextContinuation : Nat) :
    Along program [] .start 0 ⟨program, [], env, .initial, next, nextContinuation⟩ where
  firstOrder :=
    { env := henv
      globals := fun name v => Globals.forall_initial (P := fun v => v.coded = []) rfl fun _ => rfl
      waiting := fun w hw => absurd hw List.not_mem_nil }
  sites := by
    rw [State.ahead, List.nil_append]
    exact (List.Perm.of_eq (List.append_nil _)).subperm
  count := Nat.le_refl 0

/-- A site that lay ahead is visited. -/
theorem sites_visit (h : Along program visited place n s) {site : Site} {place' : Place}
    (hahead : (site :: t.ahead place').Subperm (s.ahead place)) :
    (visited ++ [site] ++ t.ahead place').Subperm (program.sites []) := by
  rw [List.append_assoc, List.singleton_append]
  exact ((List.subperm_append_left _).2 hahead).trans h.sites

/-- It goes on to the next instruction. -/
theorem goesOn {id : Nat} {form rest : Value} (h : Along program visited place n s)
    (hc : s.control = .pair id form rest)
    (ht : State.GoesOn s.waiting { s with control := rest } t) :
    Along program (visited ++ [(place.here, form)]) place.next (n + 1) t where
  firstOrder :=
    { env := ht.env ▸ h.firstOrder.env
      globals := ht.globals ▸ h.firstOrder.globals
      waiting := fun w hw => ht.nextContinuation ▸ h.firstOrder.waiting w (ht.waiting.subset hw) }
  sites := by
    refine h.sites_visit ?_
    rw [State.ahead, State.ahead, hc, ht.control, ← List.cons_append]
    exact List.Subperm.append Value.sites_rest_sublist.subperm
      (State.subperm_savedSites ht.waiting place.saved)
  count := by
    have := h.count
    have := ht.waiting.length_le
    rw [List.length_append, List.length_singleton]
    omega

/-- It enters a block of a branch. -/
theorem branch {id : Nat} {form rest a b : Value} (h : Along program visited place n s)
    (hc : s.control = .pair id form rest) (hform : Instruction.decode form = .ok (.branch a b))
    (ht : s.step host = .ok t) :
    Along program (visited ++ [(place.here, form)]) (place.after s) (n + 1) t := by
  obtain ⟨test, below, new, henters⟩ := State.exists_enters hc hform ht
  rw [place.after_of_branch hc hform henters.stack]
  refine ⟨henters.firstOrder h.firstOrder, ?_, ?_⟩
  · exact h.sites_visit (henters.ahead_subperm h.firstOrder hc hform place)
  · have hcount := h.count
    have hlength := henters.length_waiting_le
    rw [List.length_append, List.length_singleton]
    omega

/-- It resumes a continuation. -/
theorem resume (h : Along program visited place n s) (hc : s.control = .nil)
    (ht : s.step host = .ok t) : Along program visited (place.after s) (n + 1) t := by
  obtain ⟨v, id, control, env, below, hstack, ht⟩ := State.exists_of_resume hc ht
  have hperm : s.waiting.Perm (.continuation id control env :: t.waiting) := by
    rw [State.waiting, State.waiting, hstack, ht]
    exact List.perm_middle
  rw [place.after_of_resume hc hstack]
  refine ⟨⟨?_, ?_, fun w hw => ?_⟩, ?_, ?_⟩
  · obtain ⟨_, _, _, ⟨⟩, _, henv⟩ := h.firstOrder.waiting _ (hperm.mem_iff.2 List.mem_cons_self)
    exact ht ▸ henv
  · exact ht ▸ h.firstOrder.globals
  · have := h.firstOrder.waiting w (hperm.mem_iff.2 (List.mem_cons_of_mem _ hw))
    rwa [ht]
  · refine List.Subperm.trans ?_ h.sites
    have hcontrol : t.control = control := ht ▸ rfl
    rw [State.ahead, State.ahead, hc, hcontrol, Value.sites_of_not_isPair (v := .nil) rfl,
      List.nil_append]
    have hsites := hperm.flatMap_right (Value.savedSites place.saved)
    exact (List.subperm_append_left _).2 hsites.symm.subperm
  · have hcount := h.count
    rw [hperm.length_eq, List.length_cons] at hcount
    omega

/-- What one step preserves. -/
theorem step (hh : host.Sparing) (hprogram : program.isFirstOrder = true)
    (h : Along program visited place n s) (ht : s.step host = .ok t) :
    Along program (visited ++ (s.site? place).toList) (place.after s) (n + 1) t := by
  -- A step that succeeds resumes a continuation, enters a block, or goes on.
  have hstep := ht
  rw [State.step, State.stepWith] at hstep
  split at hstep
  · cases hstep
  split at hstep
  · rename_i hc
    have hnone : s.site? place = none := by simp only [State.site?, State.dispatched?, hc]; rfl
    rw [hnone, Option.toList_none, List.append_nil]
    exact h.resume hc ht
  · rename_i id form rest hc
    have hsite : s.site? place = some (place.here, form) := by
      simp only [State.site?, State.dispatched?, hc]
      rfl
    rw [hsite, Option.toList_some]
    split at hstep
    · rename_i i hi
      by_cases hbranch : ∃ a b, i = .branch a b
      · obtain ⟨a, b, rfl⟩ := hbranch
        exact h.branch hc hi ht
      · have hne : ∀ a b, i ≠ .branch a b := fun a b hab => hbranch ⟨a, b, hab⟩
        have hmem : (place.here, form) ∈ program.sites [] := by
          refine h.sites.subset (List.mem_append_right _ ?_)
          refine (s.site?_sublist_ahead place).subset ?_
          rw [hsite]
          exact List.mem_cons_self
        have hfirst : ({ s with control := rest } : State).FirstOrder :=
          ⟨h.firstOrder.env, h.firstOrder.globals, h.firstOrder.waiting⟩
        have hi' : i.isFirstOrder = true := Value.isFirstOrder_of_mem hprogram hmem hi
        rw [place.after_of_not_branch hc hi hne]
        exact h.goesOn hc (hfirst.goesOn_execute hh hi' hne hstep)
    · cases hstep
  · cases hstep

/-- What a run preserves. -/
theorem steps (hh : host.Sparing) (hprogram : program.isFirstOrder = true)
    (h : Along program visited place n s) {k : Nat} (ht : Steps .unlessDone host k s t) :
    ∃ visited' place', Along program visited' place' (n + k) t := by
  induction ht generalizing visited place n with
  | refl => exact ⟨visited, place, h⟩
  | head hst _ ih =>
    obtain ⟨visited', place', h'⟩ := ih (h.step hh hprogram hst)
    exact ⟨visited', place', by rwa [Nat.add_right_comm, Nat.add_assoc] at h'⟩

/-- No more steps are made than two for each site. -/
theorem le (h : Along program visited place n s) : n ≤ 2 * (program.sites []).length := by
  have hcount := h.count
  have hlength := h.sites.length_le
  rw [List.length_append] at hlength
  omega

/-- The sites that are dispatched from here on are others than those visited. -/
theorem dispatches (hh : host.Sparing) (hprogram : program.isFirstOrder = true)
    (h : Along program visited place n s) (k : Nat) :
    (visited ++ s.dispatches host k place).Subperm (program.sites []) := by
  induction k generalizing visited place n s with
  | zero =>
    rw [State.dispatches]
    exact ((List.subperm_append_left _).2 List.nil_subperm).trans h.sites
  | succ k ih =>
    rw [State.dispatches]
    split
    · rename_i t ht
      rw [← List.append_assoc]
      exact ih (h.step hh hprogram ht)
    · -- The step fails, and its site is the last that is dispatched.
      rw [List.append_nil]
      have hsite := (s.site?_sublist_ahead place).subperm
      exact ((List.subperm_append_left _).2 hsite).trans h.sites

/-- A run that starts has ended when it can make no more steps. -/
theorem ends (hh : host.Sparing) (hprogram : program.isFirstOrder = true)
    (h : Along program [] place 0 s) :
    (∃ t, s.run host (2 * (program.sites []).length + 1) = .finished t) ∨
      ∃ stop, s.run host (2 * (program.sites []).length + 1) = .failed stop := by
  cases hrun : s.run host (2 * (program.sites []).length + 1) with
  | finished t => exact .inl ⟨t, rfl⟩
  | failed stop => exact .inr ⟨stop, rfl⟩
  | unfinished t =>
    -- Such a run would have made more steps than there can be.
    obtain ⟨hsteps, _⟩ := State.run_eq_unfinished_iff.1 hrun
    obtain ⟨_, _, h'⟩ := h.steps hh hprogram hsteps
    have hle : 0 + (2 * (program.sites []).length + 1) ≤ 2 * (program.sites []).length := h'.le
    omega

/-- A run that starts dispatches different sites of the program. -/
theorem dispatches_once (hh : host.Sparing) (hprogram : program.isFirstOrder = true)
    (h : Along program [] place 0 s) (n : Nat) :
    ((s.dispatches host n place).map Prod.fst).Nodup ∧
      s.dispatches host n place ⊆ program.sites [] := by
  have hsites := h.dispatches hh hprogram n
  rw [List.nil_append] at hsites
  obtain ⟨_, hperm, hsub⟩ := hsites
  exact ⟨(hperm.map _).nodup_iff.1 ((hsub.map _).nodup (program.nodup_sites [])),
    fun site hsite => hsub.subset (hperm.mem_iff.2 hsite)⟩

end Along

section

variable {program : Value} {env : List Value}

/-- First-order programs terminate. In a program without instructions that make functions or
    bind globals, in it or in the blocks of its branches, and with no functions and no
    continuations in what it pushes and in the environment, let the natives return code no
    more often than they are given it, as the built-in ones do. Then the run of the program
    on an empty stack, with the globals that engines start with, has ended with a result or
    failed after at most twice as many steps as the program has sites, and one; and however
    long it runs, each site of the program, counting both blocks of each branch once, is
    dispatched once at most, and nothing else is. -/
theorem firstOrder_terminates {host : Host} (hh : host.Sparing)
    (hprogram : program.isFirstOrder = true) (henv : ∀ v ∈ env, v.coded = [])
    (next nextContinuation : Nat) :
    let start : State := ⟨program, [], env, .initial, next, nextContinuation⟩
    let sites := program.sites []
    ((∃ t, start.run host (2 * sites.length + 1) = .finished t) ∨
        ∃ stop, start.run host (2 * sites.length + 1) = .failed stop) ∧
      (sites.map Prod.fst).Nodup ∧
      ∀ n, ((start.dispatches host n .start).map Prod.fst).Nodup ∧
        start.dispatches host n .start ⊆ sites := by
  intro start sites
  have halong := Along.start henv program next nextContinuation
  exact ⟨halong.ends hh hprogram, program.nodup_sites [], halong.dispatches_once hh hprogram⟩

/-- A new engine has no natives but the built-in ones, so on it first-order programs terminate
    without a condition on natives. -/
theorem firstOrder_terminates_bare (hprogram : program.isFirstOrder = true)
    (henv : ∀ v ∈ env, v.coded = []) (next nextContinuation : Nat) :
    let start : State := ⟨program, [], env, .initial, next, nextContinuation⟩
    let sites := program.sites []
    ((∃ t, start.run .bare (2 * sites.length + 1) = .finished t) ∨
        ∃ stop, start.run .bare (2 * sites.length + 1) = .failed stop) ∧
      (sites.map Prod.fst).Nodup ∧
      ∀ n, ((start.dispatches .bare n .start).map Prod.fst).Nodup ∧
        start.dispatches .bare n .start ⊆ sites := by
  intro start sites
  have halong := Along.start henv program next nextContinuation
  exact ⟨halong.ends Host.sparing_bare hprogram, program.nodup_sites [],
    halong.dispatches_once Host.sparing_bare hprogram⟩

end

open Instruction in
/-- A program stores the continuation of a branch in a pair, takes it out again and resumes
    it. It ends after 13 steps, has come to 12 of its 14 sites, and to each of them once. -/
theorem firstOrder_terminates_stored :
    let stores := (encodeAll [access 0, call 2, call 1, push (.number 9)] 0).1
    let skipped := (encodeAll [pop, pop] 20).1
    let last := (encodeAll [pop, push (.number 3)] 30).1
    let program := (encodeAll [getGlobal "car", getGlobal "cons", push (.bool true),
      branch stores skipped, push (.bool false), branch .nil last] 40).1
    let start : State := ⟨program, [], [.number 5], .initial, 100, 7⟩
    (Host.bare.Sparing ∧ program.isFirstOrder = true ∧ ∀ v ∈ start.env, v.coded = []) ∧
      (program.sites []).length = 14 ∧
      (∃ t, start.run .bare 13 = .finished t ∧ t.stack = [.number 3]) ∧
      (start.dispatches .bare 13 .start).length = 12 ∧
      ((start.dispatches .bare 13 .start).map Prod.fst).Nodup := by
  intro stores skipped last program start
  have hprogram : program.isFirstOrder = true := by cbv
  have henv : ∀ v ∈ start.env, v.coded = [] := by
    simp [start, Value.coded]
  obtain ⟨_, _, hdispatches⟩ :=
    firstOrder_terminates Host.sparing_bare hprogram henv 100 7
  exact ⟨⟨Host.sparing_bare, hprogram, henv⟩, by cbv, ⟨_, by cbv, rfl⟩, by cbv,
    (hdispatches 13).1⟩

end ConsMachine
