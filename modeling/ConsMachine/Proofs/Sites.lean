import Mathlib.Data.List.Nodup
import ConsMachine.Proofs.CodeBlocks
import ConsMachine.Proofs.InstructionForms

/-!
# Sites of a program

The *sites* of a program are its instructions, those in the blocks of branches too, each with
the turns on the way to it (`Value.sites`). Different sites have different ways
(`Value.nodup_sites`).

A run that makes no functions is always at some *place* in its program: the way to the
instructions at hand, and the ways to those that its continuations have saved (`Place`). It is
followed from step to step (`Place.after`), and with it the sites that the run dispatches
(`State.dispatches`).
-/

namespace ConsMachine

/-! ### Sites -/

/-- A way on from an instruction: to the next one, or into a block of a branch. -/
inductive Turn where
  | next
  | inside (test : Bool)
  deriving DecidableEq

/-- An instruction of a program: the turns on the way to it, and its form. -/
abbrev Site := List Turn × Value

theorem Instruction.size_of_decode_branch {form a b : Value}
    (h : decode form = .ok (.branch a b)) : a.size < form.size ∧ b.size < form.size := by
  obtain ⟨items, hitems, hspelt⟩ := decode_eq_ok_iff.1 h
  cases hspelt
  obtain ⟨_, d, rfl, hd⟩ := Value.list?_eq_some_cons_iff.1 hitems
  obtain ⟨_, e, rfl, he⟩ := Value.list?_eq_some_cons_iff.1 hd
  obtain ⟨_, _, rfl, _⟩ := Value.list?_eq_some_cons_iff.1 he
  simp only [Value.size]
  omega

namespace Value

/-- The sites of a program, with both blocks of each branch; `here` are the turns on the
    way to its first instruction. -/
def sites : Value → List Turn → List Site
  | pair _ form rest, here =>
    (here, form) :: (rest.sites (here ++ [.next]) ++
      match h : Instruction.decode form with
      | .ok (.branch thenCode elseCode) =>
        thenCode.sites (here ++ [.inside true]) ++ elseCode.sites (here ++ [.inside false])
      | _ => [])
  | _, _ => []
termination_by v => v.size
decreasing_by
  · simp only [size]
    omega
  · have := (Instruction.size_of_decode_branch h).1
    simp only [size]
    omega
  · have := (Instruction.size_of_decode_branch h).2
    simp only [size]
    omega

variable {form rest a b : Value} {id : Nat} {here : List Turn} {site : Site}

theorem sites_of_branch (h : Instruction.decode form = .ok (.branch a b)) :
    (pair id form rest).sites here = (here, form) :: (rest.sites (here ++ [.next]) ++
      (a.sites (here ++ [.inside true]) ++ b.sites (here ++ [.inside false]))) := by
  rw [sites]
  split
  · rename_i h'
    rw [h] at h'
    cases h'
    rfl
  · rename_i h'
    exact absurd h (h' a b)

theorem sites_of_not_branch (h : ∀ a b, Instruction.decode form ≠ .ok (.branch a b)) :
    (pair id form rest).sites here = (here, form) :: rest.sites (here ++ [.next]) := by
  rw [sites]
  split
  · rename_i h'
    exact absurd h' (h _ _)
  · rw [List.append_nil]

theorem sites_rest_sublist :
    ((here, form) :: rest.sites (here ++ [.next])).Sublist ((pair id form rest).sites here) := by
  rw [sites]
  exact (List.sublist_append_left _ _).cons_cons _

theorem sites_of_not_isPair {v : Value} (h : v.isPair = false) : v.sites here = [] := by
  cases v with
  | pair => cases h
  | _ => rw [sites]; simp

/-- Induction over the blocks of a program. -/
theorem sitesInduction {motive : Value → List Turn → Prop}
    (atom : ∀ v here, v.isPair = false → motive v here)
    (branch : ∀ id form rest here a b, Instruction.decode form = .ok (.branch a b) →
      motive rest (here ++ [.next]) → motive a (here ++ [.inside true]) →
      motive b (here ++ [.inside false]) → motive (pair id form rest) here)
    (other : ∀ id form rest here, (∀ a b, Instruction.decode form ≠ .ok (.branch a b)) →
      motive rest (here ++ [.next]) → motive (pair id form rest) here)
    (v : Value) (here : List Turn) : motive v here := by
  induction v, here using sites.induct with
  | case1 id form rest here ihrest iha ihb =>
    by_cases h : ∃ a b, Instruction.decode form = .ok (.branch a b)
    · obtain ⟨a, b, h⟩ := h
      exact branch id form rest here a b h ihrest (iha a b h) (ihb a b h)
    · exact other id form rest here (fun a b hab => h ⟨a, b, hab⟩) ihrest
  | case2 v here h =>
    refine atom v here ?_
    cases v with
    | pair id form rest => exact (h id form rest rfl).elim
    | _ => rfl

/-- All sites of a program lie behind its beginning. -/
theorem prefix_of_mem_sites {v : Value} (h : site ∈ v.sites here) : here <+: site.1 := by
  induction v, here using sitesInduction with
  | atom v here hv =>
    rw [sites_of_not_isPair hv] at h
    cases h
  | branch id form rest here a b hform ihrest iha ihb =>
    rw [sites_of_branch hform, List.mem_cons, List.mem_append, List.mem_append] at h
    rcases h with rfl | h | h | h
    · exact List.prefix_rfl
    · exact (List.prefix_append _ _).trans (ihrest h)
    · exact (List.prefix_append _ _).trans (iha h)
    · exact (List.prefix_append _ _).trans (ihb h)
  | other id form rest here hform ihrest =>
    rw [sites_of_not_branch hform, List.mem_cons] at h
    rcases h with rfl | h
    · exact List.prefix_rfl
    · exact (List.prefix_append _ _).trans (ihrest h)

/-- No site behind a turn is the site before it. -/
theorem not_mem_sites {v : Value} (here : List Turn) (turn : Turn) :
    here ∉ (v.sites (here ++ [turn])).map Prod.fst := by
  intro h
  obtain ⟨site, hsite, rfl⟩ := List.mem_map.1 h
  have hle := (prefix_of_mem_sites hsite).length_le
  rw [List.length_append, List.length_singleton] at hle
  omega

/-- Different turns lead to different sites. -/
theorem disjoint_sites {v w : Value} {turn turn' : Turn} (here : List Turn) (h : turn ≠ turn') :
    ((v.sites (here ++ [turn])).map Prod.fst).Disjoint
      ((w.sites (here ++ [turn'])).map Prod.fst) := by
  intro path hv hw
  obtain ⟨site, hsite, rfl⟩ := List.mem_map.1 hv
  obtain ⟨site', hsite', heq⟩ := List.mem_map.1 hw
  obtain ⟨l, hl⟩ := prefix_of_mem_sites hsite
  obtain ⟨l', hl'⟩ := prefix_of_mem_sites hsite'
  rw [heq, ← hl] at hl'
  simp at hl'
  exact h hl'.1.symm

/-- A program has each site once. -/
theorem nodup_sites (v : Value) (here : List Turn) : ((v.sites here).map Prod.fst).Nodup := by
  induction v, here using sitesInduction with
  | atom v here hv =>
    rw [sites_of_not_isPair hv]
    exact .nil
  | branch id form rest here a b hform ihrest iha ihb =>
    rw [sites_of_branch hform, List.map_cons, List.map_append, List.map_append]
    -- The site itself comes before all turns, and the three turns lead to different sites.
    refine List.nodup_cons.2
      ⟨fun h => ?_, List.Nodup.append ihrest (List.Nodup.append iha ihb ?_) ?_⟩
    · rcases List.mem_append.1 h with h | h
      · exact not_mem_sites here _ h
      rcases List.mem_append.1 h with h | h
      · exact not_mem_sites here _ h
      · exact not_mem_sites here _ h
    · exact disjoint_sites here (by decide)
    · exact List.disjoint_append_right.2
        ⟨disjoint_sites here (by decide), disjoint_sites here (by decide)⟩
  | other id form rest here hform ihrest =>
    rw [sites_of_not_branch hform, List.map_cons]
    exact List.nodup_cons.2 ⟨not_mem_sites here _, ihrest⟩

end Value

/-! ### Places -/

/-- The sites that a continuation leads to; `saved` are the turns on the way to them. -/
def Value.savedSites (saved : Nat → List Turn) : Value → List Site
  | continuation id control _ => control.sites (saved id)
  | _ => []

/-- Where a run is: the turns on the way to its instructions, and to those of each
    continuation. -/
structure Place where
  here : List Turn
  saved : Nat → List Turn

namespace Place

/-- At the beginning, before any continuation is made. -/
def start : Place :=
  ⟨[], fun _ => []⟩

/-- At the next instruction. -/
def next (place : Place) : Place :=
  { place with here := place.here ++ [.next] }

/-- In a block of a branch, with a continuation whose way is that to the next instruction. -/
def enter (place : Place) (test : Bool) (continuation : Nat) : Place where
  here := place.here ++ [.inside test]
  saved id := if id = continuation then place.here ++ [.next] else place.saved id

theorem saved_enter_self (place : Place) (test : Bool) (id : Nat) :
    (place.enter test id).saved id = place.here ++ [.next] :=
  if_pos rfl

theorem saved_enter_of_ne (place : Place) (test : Bool) {id continuation : Nat}
    (h : id ≠ continuation) : (place.enter test continuation).saved id = place.saved id :=
  if_neg h

/-- Where a continuation leads. -/
def resume (place : Place) (continuation : Nat) : Place :=
  { place with here := place.saved continuation }

/-- Where a run without functions is after the next step. -/
def after (place : Place) (s : State) : Place :=
  match s.control with
  | .pair _ form _ =>
    match Instruction.decode form with
    | .ok (.branch ..) =>
      match s.stack with
      | test :: _ => place.enter test.isTrue s.nextContinuation
      | [] => place
    | _ => place.next
  | _ =>
    match s.stack with
    | _ :: .continuation id _ _ :: _ => place.resume id
    | _ => place

variable {s : State} {id : Nat} {form rest : Value}

theorem after_of_branch {a b test : Value} {below : List Value} (place : Place)
    (hc : s.control = .pair id form rest) (hform : Instruction.decode form = .ok (.branch a b))
    (hstack : s.stack = test :: below) :
    place.after s = place.enter test.isTrue s.nextContinuation := by
  simp only [after, hc, hform, hstack]

theorem after_of_not_branch {i : Instruction} (place : Place) (hc : s.control = .pair id form rest)
    (hform : Instruction.decode form = .ok i) (hi : ∀ a b, i ≠ .branch a b) :
    place.after s = place.next := by
  simp only [after, hc, hform]
  split
  · rename_i heq
    cases heq
    exact absurd rfl (hi _ _)
  · rfl

theorem after_of_resume {v control : Value} {env below : List Value} (place : Place)
    (hc : s.control = .nil) (hstack : s.stack = v :: .continuation id control env :: below) :
    place.after s = place.resume id := by
  simp only [after, hc, hstack]

end Place

namespace State

variable {host : Host} {s t : State}

/-- The site whose turn it is. -/
def site? (s : State) (place : Place) : Option Site :=
  s.dispatched?.map fun form => (place.here, form)

/-- The sites that a run dispatches with its next steps, in this order, also at a step that
    fails. -/
def dispatches (host : Host) : Nat → State → Place → List Site
  | 0, _, _ => []
  | n + 1, s, place =>
    (s.site? place).toList ++
      match s.step host with
      | .ok t => dispatches host n t (place.after s)
      | .error _ => []

end State

end ConsMachine
