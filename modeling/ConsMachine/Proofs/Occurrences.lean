import Mathlib.Data.Set.Finite.Lattice
import ConsMachine.Proofs.CodeBlocks
import ConsMachine.Proofs.InstructionForms

/-!
# What occurs in a value

A value occurs in another if it is found in it on any way: as a half of a pair, as the
code of a function or of a continuation, or in what one of these has captured
(`Occurs`). Values are finite, so only finitely many occur in each (`Occurs.finite`).

All the blocks of code that a run can execute occur in the values that it starts with
(`Block.occurs`), so there are finitely many of them as well (`Block.finite`).
-/

namespace ConsMachine

/-- A value is found in another, on any way through pairs, code and environments. -/
inductive Occurs : Value → Value → Prop
  | self (v : Value) : Occurs v v
  | car {w a d : Value} {id : Nat} : Occurs w a → Occurs w (.pair id a d)
  | cdr {w a d : Value} {id : Nat} : Occurs w d → Occurs w (.pair id a d)
  | code {w code : Value} {id arity : Nat} {hasRest : Bool} {env : List Value} :
      Occurs w code → Occurs w (.closure id arity hasRest code env)
  | captured {w v code : Value} {id arity : Nat} {hasRest : Bool} {env : List Value} :
      v ∈ env → Occurs w v → Occurs w (.closure id arity hasRest code env)
  | control {w control : Value} {id : Nat} {env : List Value} :
      Occurs w control → Occurs w (.continuation id control env)
  | saved {w v control : Value} {id : Nat} {env : List Value} :
      v ∈ env → Occurs w v → Occurs w (.continuation id control env)

variable {u v w code : Value}

namespace Occurs

theorem trans (huv : Occurs u v) (hvw : Occurs v w) : Occurs u w := by
  induction hvw with
  | self => exact huv
  | car _ ih => exact .car ih
  | cdr _ ih => exact .cdr ih
  | code _ ih => exact .code ih
  | captured hv _ ih => exact .captured hv ih
  | control _ ih => exact .control ih
  | saved hv _ ih => exact .saved hv ih

/-- The parts of a value occur in it. -/
theorem of_part (h : Part w v) : Occurs w v := by
  induction h with
  | self => exact .self _
  | car _ ih => exact .car ih
  | cdr _ ih => exact .cdr ih
  | closure hv _ ih => exact .captured hv ih
  | continuation hv _ ih => exact .saved hv ih

theorem of_code? (h : v.code? = some code) : Occurs code v := by
  unfold Value.code? at h
  split at h
  · cases h
    exact .code (.self _)
  · cases h
    exact .control (.self _)
  · cases h

/-- The items of a list occur in it. -/
theorem of_mem_list? {vs : List Value} (h : v.list? = some vs) (hw : w ∈ vs) : Occurs w v := by
  induction vs generalizing v with
  | nil => cases hw
  | cons a vs ih =>
    obtain ⟨_, d, rfl, hd⟩ := Value.list?_eq_some_cons_iff.1 h
    rcases List.mem_cons.1 hw with rfl | hw
    · exact .car (.self w)
    · exact .cdr (ih hd hw)

theorem finite_of_eq (h : ∀ w, Occurs w v → w = v) : {w | Occurs w v}.Finite :=
  (Set.finite_singleton v).subset h

end Occurs

mutual

/-- Finitely many values occur in a value. -/
theorem Occurs.finite : (v : Value) → {w | Occurs w v}.Finite
  | .pair id a d => by
    have hparts := (Occurs.finite a).union (Occurs.finite d)
    refine (hparts.insert (.pair id a d)).subset fun w hw => ?_
    cases hw with
    | self => exact .inl rfl
    | car hw => exact .inr (.inl hw)
    | cdr hw => exact .inr (.inr hw)
  | .closure id arity hasRest body env => by
    have hparts := (Occurs.finite body).union (Occurs.finite_of_mem env)
    refine (hparts.insert (.closure id arity hasRest body env)).subset fun w hw => ?_
    cases hw with
    | self => exact .inl rfl
    | code hw => exact .inr (.inl hw)
    | captured hv hw => exact .inr (.inr ⟨_, hv, hw⟩)
  | .continuation id rest env => by
    have hparts := (Occurs.finite rest).union (Occurs.finite_of_mem env)
    refine (hparts.insert (.continuation id rest env)).subset fun w hw => ?_
    cases hw with
    | self => exact .inl rfl
    | control hw => exact .inr (.inl hw)
    | saved hv hw => exact .inr (.inr ⟨_, hv, hw⟩)
  | .nil | .bool _ | .number _ | .symbol _ | .native _ | .apply => by
    refine Occurs.finite_of_eq ?_
    rintro w ⟨⟩
    rfl

/-- Finitely many values occur in a list of values. -/
theorem Occurs.finite_of_mem : (vs : List Value) → {w | ∃ v ∈ vs, Occurs w v}.Finite
  | [] => by simp
  | v :: vs => by
    refine ((Occurs.finite v).union (Occurs.finite_of_mem vs)).subset ?_
    rintro w ⟨u, hu, hw⟩
    rcases List.mem_cons.1 hu with rfl | hu
    · exact .inl hw
    · exact .inr ⟨u, hu, hw⟩

end

/-! ### Blocks -/

/-- The values of a table of globals. -/
def Globals.values (g : Globals) : List Value :=
  g.bindings.map Prod.snd

theorem Globals.mem_values {g : Globals} {name : String} (h : g.find? name = some v) :
    v ∈ g.values := by
  obtain ⟨b, hb, rfl⟩ := Option.map_eq_some_iff.1 h
  exact List.mem_map_of_mem (List.mem_of_find?_eq_some hb)

/-- The values that a state starts from: its program, and what it holds. -/
def State.roots (s : State) : List Value :=
  s.control :: (s.stack ++ s.env ++ s.globals.values)

theorem State.Holds.mem_roots {s : State} (h : s.Holds v) : v ∈ s.roots := by
  refine List.mem_cons_of_mem _ ?_
  rw [List.mem_append, List.mem_append]
  rcases h with hv | hv | hv
  · exact .inl (.inl hv)
  · exact .inl (.inr hv)
  · exact .inr (Globals.mem_values hv)

/-- What is decoded from a form occurs in it. -/
theorem Instruction.occurs_of_decode {form : Value} {i : Instruction} (h : decode form = .ok i) :
    (∀ v, i = .push v → Occurs v form) ∧
      (∀ arity hasRest code, i = .closure arity hasRest code → Occurs code form) ∧
      ∀ thenCode elseCode, i = .branch thenCode elseCode →
        Occurs thenCode form ∧ Occurs elseCode form := by
  obtain ⟨items, hitems, hspelt⟩ := decode_eq_ok_iff.1 h
  refine ⟨?_, ?_, ?_⟩
  · rintro v rfl
    cases hspelt
    exact .of_mem_list? hitems (by simp)
  · rintro arity hasRest code rfl
    cases hspelt
    exact .of_mem_list? hitems (by simp)
  · rintro thenCode elseCode rfl
    cases hspelt
    exact ⟨.of_mem_list? hitems (by simp), .of_mem_list? hitems (by simp)⟩

variable {start : State}

mutual

/-- The blocks of a run occur in the values that it starts from. -/
theorem Block.occurs {block : Value} : Block start block → ∃ r ∈ start.roots, Occurs block r
  | .program => ⟨start.control, List.mem_cons_self, .self _⟩
  | .code hw hcode =>
    let ⟨r, hr, hoccurs⟩ := Given.occurs hw
    ⟨r, hr, .trans (.of_code? hcode) hoccurs⟩
  | .rest h =>
    let ⟨r, hr, hoccurs⟩ := Block.occurs h
    ⟨r, hr, .trans (.cdr (.self _)) hoccurs⟩
  | .thenCode h hi =>
    let ⟨r, hr, hoccurs⟩ := Block.occurs h
    ⟨r, hr, .trans (.car ((Instruction.occurs_of_decode hi).2.2 _ _ rfl).1) hoccurs⟩
  | .elseCode h hi =>
    let ⟨r, hr, hoccurs⟩ := Block.occurs h
    ⟨r, hr, .trans (.car ((Instruction.occurs_of_decode hi).2.2 _ _ rfl).2) hoccurs⟩
  | .body h hi =>
    let ⟨r, hr, hoccurs⟩ := Block.occurs h
    ⟨r, hr, .trans (.car ((Instruction.occurs_of_decode hi).2.1 _ _ _ rfl)) hoccurs⟩

/-- What is given to a run occurs in the values that it starts from. -/
theorem Given.occurs {given : Value} : Given start given → ∃ r ∈ start.roots, Occurs given r
  | .held hv hw => ⟨_, hv.mem_roots, .of_part hw⟩
  | .pushed h hi hw =>
    let ⟨r, hr, hoccurs⟩ := Block.occurs h
    ⟨r, hr, .trans (.of_part hw)
      (.trans (.car ((Instruction.occurs_of_decode hi).1 _ rfl)) hoccurs)⟩

end

/-- A run has finitely many blocks. -/
theorem Block.finite (start : State) : {code | Block start code}.Finite :=
  (Occurs.finite_of_mem start.roots).subset fun _ h => h.occurs

end ConsMachine
