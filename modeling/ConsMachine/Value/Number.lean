/-!
# Numbers

The numbers of the machine are the integers of 64 bits. Sums and differences
are exact or absent, they never wrap; an integer is written in decimal, with a
minus sign in front of a negative one.
-/

namespace ConsMachine.Number

/-- The integer `i`, if 64 bits hold it. -/
def ofInt? (i : Int) : Option Int64 :=
  if Int64.minValue.toInt ≤ i ∧ i ≤ Int64.maxValue.toInt then some (Int64.ofInt i) else none

/-- The sum, if 64 bits hold it. -/
def add? (a b : Int64) : Option Int64 :=
  ofInt? (a.toInt + b.toInt)

/-- The difference, if 64 bits hold it. -/
def sub? (a b : Int64) : Option Int64 :=
  ofInt? (a.toInt - b.toInt)

/-- The product, if 64 bits hold it. -/
def mul? (a b : Int64) : Option Int64 :=
  ofInt? (a.toInt * b.toInt)

/-- The decimal text of a number. -/
def text (n : Int64) : String :=
  if n.toInt < 0 then "-" ++ n.toInt.natAbs.repr else n.toInt.natAbs.repr

theorem ofInt?_eq_some_iff {i : Int} {n : Int64} : ofInt? i = some n ↔ n.toInt = i := by
  unfold ofInt?
  constructor
  · intro h
    split at h
    · rename_i hi
      rw [← Option.some.inj h]
      exact Int64.toInt_ofInt_of_le hi.1 (Int.lt_of_le_of_lt hi.2 (by decide))
    · simp at h
  · rintro rfl
    rw [if_pos ⟨n.le_toInt, Int.le_of_lt_add_one n.toInt_lt⟩, Int64.ofInt_toInt]

@[simp] theorem ofInt?_toInt (n : Int64) : ofInt? n.toInt = some n :=
  ofInt?_eq_some_iff.2 rfl

theorem ofInt?_eq_none_iff {i : Int} : ofInt? i = none ↔
    i < Int64.minValue.toInt ∨ Int64.maxValue.toInt < i := by
  unfold ofInt?
  split
  · rename_i h
    constructor
    · rintro ⟨⟩
    · omega
  · rename_i h
    exact ⟨fun _ => by omega, fun _ => rfl⟩

end ConsMachine.Number
