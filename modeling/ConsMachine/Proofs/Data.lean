import ConsMachine.Datum.Basic
import ConsMachine.Value.Equality

/-!
# Data among the values

Values without functions and continuations in them are data, once the identities
of their pairs are forgotten (`Value.datum?`). Loading a datum makes a value of it
(`datum?_load`), and what is equal by contents to a value of a datum are the values
of this datum (`equal_iff_of_datum?`).

The work list of `Value.equal` finds values equal that are so by recursion
(`Value.Equal.equal`). It finds no others, unless a pair of one value has the
identity of a pair of the other and is not this pair (`equal_iff_of_agree`).
-/

namespace ConsMachine

namespace Value

/-- The datum of a value, if it is one. -/
def datum? : Value → Option Datum
  | nil => some .nil
  | bool b => some (.bool b)
  | number n => some (.number n)
  | symbol name => some (.symbol name)
  | pair _ a d =>
    match a.datum?, d.datum? with
    | some a, some d => some (.pair a d)
    | _, _ => none
  | _ => none

theorem datum?_pair_eq_some_iff {id : Nat} {a d : Value} {e : Datum} :
    (pair id a d).datum? = some e ↔
      ∃ a' d', a.datum? = some a' ∧ d.datum? = some d' ∧ e = .pair a' d' := by
  rw [datum?]
  split
  · rename_i ha hd
    simp [ha, hd, eq_comm]
  · rename_i h
    constructor
    · rintro ⟨⟩
    · rintro ⟨a', d', ha, hd, _⟩
      exact absurd hd (h a' d' ha)

theorem datum?_load (e : Datum) (next : Nat) : (e.load next).1.datum? = some e := by
  induction e generalizing next with
  | pair a d iha ihd =>
    rw [Datum.load_pair]
    exact datum?_pair_eq_some_iff.2 ⟨a, d, iha next, ihd _, rfl⟩
  | _ => rfl

/-- Data is equal by contents to the values of the same datum, and to nothing else. -/
theorem equal_iff_of_datum? {v w : Value} {e : Datum} (hw : w.datum? = some e) :
    w.Equal v ↔ v.datum? = some e := by
  induction w generalizing v e with
  | pair id a d iha ihd =>
    obtain ⟨a', d', ha, hd, rfl⟩ := datum?_pair_eq_some_iff.1 hw
    cases v with
    | pair id' b c =>
      rw [Equal, iha ha, ihd hd, datum?_pair_eq_some_iff]
      simp [eq_comm]
    | _ => simp [Equal, same, datum?]
  | native | closure | continuation | apply => cases hw
  | _ =>
    cases hw
    cases v with
    | pair id' b c =>
      refine iff_of_false (by simp [Equal, same]) fun h => ?_
      obtain ⟨_, _, _, _, ⟨⟩⟩ := datum?_pair_eq_some_iff.1 h
    | _ =>
      rw [Equal]
      · simp [same, datum?] <;> exact eq_comm
      · rintro _ _ _ _ _ _ ⟨⟩

/-! ### The work list -/

theorem Equal.refl (v : Value) : v.Equal v := by
  induction v with
  | pair id a d iha ihd => exact ⟨iha, ihd⟩
  | _ => exact same_self _

theorem equalAll_of_Equal (pending : List (Value × Value)) (h : ∀ p ∈ pending, p.1.Equal p.2) :
    equalAll pending = true := by
  fun_induction equalAll pending with
  | case1 => rfl
  | case2 i a b j c d pending _ ih => exact ih (List.forall_mem_cons.1 h).2
  | case3 i a b j c d pending _ ih =>
    obtain ⟨⟨ha, hd⟩, h⟩ := List.forall_mem_cons.1 h
    exact ih (List.forall_mem_cons.2 ⟨ha, List.forall_mem_cons.2 ⟨hd, h⟩⟩)
  | case4 v w pending hpair ih =>
    obtain ⟨hvw, h⟩ := List.forall_mem_cons.1 h
    rw [Equal] at hvw
    · simp [hvw, ih h]
    · rintro i a b j c d rfl rfl
      exact hpair i a b j c d rfl rfl

/-- The work list finds equal what is equal by recursion. -/
theorem Equal.equal {v w : Value} (h : v.Equal w) : v.equal w = true :=
  equalAll_of_Equal _ (List.forall_mem_singleton.2 h)

/-- The pairs of a value, each with those in its halves behind it. -/
def pairs : Value → List Value
  | pair id a d => pair id a d :: (a.pairs ++ d.pairs)
  | _ => []

/-- A pair of one value that has the identity of a pair of the other is this pair. -/
def Agree (v w : Value) : Prop :=
  ∀ id a b c d, pair id a b ∈ v.pairs → pair id c d ∈ w.pairs → a = c ∧ b = d

namespace Agree

variable {i j : Nat} {a b c d v w : Value}

theorem of_one (h : Agree (pair i a b) (pair i c d)) : a = c ∧ b = d :=
  h i a b c d List.mem_cons_self List.mem_cons_self

theorem car (h : Agree (pair i a b) (pair j c d)) : Agree a c := fun id _ _ _ _ hv hw =>
  h id _ _ _ _ (List.mem_cons_of_mem _ (List.mem_append_left _ hv))
    (List.mem_cons_of_mem _ (List.mem_append_left _ hw))

theorem cdr (h : Agree (pair i a b) (pair j c d)) : Agree b d := fun id _ _ _ _ hv hw =>
  h id _ _ _ _ (List.mem_cons_of_mem _ (List.mem_append_right _ hv))
    (List.mem_cons_of_mem _ (List.mem_append_right _ hw))

end Agree

/-- What the work list takes for one pair has to be one pair. -/
theorem Equal_of_equalAll (pending : List (Value × Value))
    (hagree : ∀ p ∈ pending, Agree p.1 p.2) (h : equalAll pending = true) :
    ∀ p ∈ pending, p.1.Equal p.2 := by
  fun_induction equalAll pending with
  | case1 => simp
  | case2 i a b j c d pending hij ih =>
    obtain ⟨hone, hrest⟩ := List.forall_mem_cons.1 hagree
    obtain rfl : i = j := by simpa using hij
    obtain ⟨rfl, rfl⟩ := hone.of_one
    exact List.forall_mem_cons.2 ⟨.refl _, ih hrest h⟩
  | case3 i a b j c d pending _ ih =>
    obtain ⟨hpair, hagree⟩ := List.forall_mem_cons.1 hagree
    have := ih (List.forall_mem_cons.2 ⟨hpair.car, List.forall_mem_cons.2 ⟨hpair.cdr, hagree⟩⟩) h
    obtain ⟨hac, hbd, h⟩ : _ ∧ _ ∧ _ := by simpa only [List.forall_mem_cons] using this
    exact List.forall_mem_cons.2 ⟨⟨hac, hbd⟩, h⟩
  | case4 v w pending hpair ih =>
    obtain ⟨hsame, h⟩ := (Bool.and_eq_true _ _).mp h
    refine List.forall_mem_cons.2 ⟨?_, ih (List.forall_mem_cons.1 hagree).2 h⟩
    rw [Equal]
    · exact hsame
    · rintro i a b j c d rfl rfl
      exact hpair i a b j c d rfl rfl

/-- Between values that agree on the pairs that they share, the work list finds the same
    as the recursion. -/
theorem equal_iff_of_agree {v w : Value} (h : Agree v w) : v.equal w = true ↔ v.Equal w :=
  ⟨fun hvw => Equal_of_equalAll [(v, w)] (List.forall_mem_singleton.2 h) hvw (v, w)
      List.mem_cons_self,
    Equal.equal⟩

/-! ### New values and old ones -/

/-- The pairs of a value all have identities below `next`. -/
def MadeBefore (next : Nat) : Value → Prop
  | pair id a d => id < next ∧ a.MadeBefore next ∧ d.MadeBefore next
  | _ => True

/-- The pairs of a value all have identities from `next` on. -/
def MadeFrom (next : Nat) : Value → Prop
  | pair id a d => next ≤ id ∧ a.MadeFrom next ∧ d.MadeFrom next
  | _ => True

theorem MadeFrom.mono {v : Value} {m n : Nat} (h : v.MadeFrom n) (hmn : m ≤ n) :
    v.MadeFrom m := by
  induction v with
  | pair id a d iha ihd => exact ⟨Nat.le_trans hmn h.1, iha h.2.1, ihd h.2.2⟩
  | _ => trivial

theorem load_madeFrom (e : Datum) (next : Nat) :
    (e.load next).1.MadeFrom next ∧ next ≤ (e.load next).2 := by
  induction e generalizing next with
  | pair a d iha ihd =>
    obtain ⟨ha, hcar⟩ := iha next
    obtain ⟨hd, hcdr⟩ := ihd (a.load next).2
    rw [Datum.load_pair]
    exact ⟨⟨Nat.le_trans hcar hcdr, ha, hd.mono hcar⟩, by grind⟩
  | _ => exact ⟨trivial, Nat.le_refl _⟩

theorem MadeFrom.le {v a d : Value} {id next : Nat} (h : v.MadeFrom next)
    (hp : pair id a d ∈ v.pairs) : next ≤ id := by
  induction v with
  | pair i b c ihb ihc =>
    simp only [pairs, List.mem_cons, List.mem_append] at hp
    obtain ⟨⟨⟩⟩ | hp | hp := hp
    · exact h.1
    · exact ihb h.2.1 hp
    · exact ihc h.2.2 hp
  | _ => cases hp

theorem MadeBefore.lt {v a d : Value} {id next : Nat} (h : v.MadeBefore next)
    (hp : pair id a d ∈ v.pairs) : id < next := by
  induction v with
  | pair i b c ihb ihc =>
    simp only [pairs, List.mem_cons, List.mem_append] at hp
    obtain ⟨⟨⟩⟩ | hp | hp := hp
    · exact h.1
    · exact ihb h.2.1 hp
    · exact ihc h.2.2 hp
  | _ => cases hp

/-- Between a new value and an old one the work list finds the same as the
    recursion: they share no pair. -/
theorem equal_iff_Equal {v w : Value} {next : Nat} (hv : v.MadeFrom next)
    (hw : w.MadeBefore next) : v.equal w = true ↔ v.Equal w :=
  equal_iff_of_agree fun _ _ _ _ _ hpv hpw =>
    absurd (hv.le hpv) (Nat.not_le.2 (hw.lt hpw))

end Value

end ConsMachine
