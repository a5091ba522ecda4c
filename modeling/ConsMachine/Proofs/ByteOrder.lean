import Mathlib.Algebra.Ring.Nat
import Mathlib.Data.List.Lex

/-!
# The order of bytes

Texts are ordered by their characters. Their bytes in UTF-8 are in the same order
(`utf8_lt_utf8`): of two characters, the greater has more bytes, and then a first byte
that is greater; or it has as many, and then the first digit in which they differ is in
the first byte that differs. So neither is ever the beginning of the other, and what
follows in the text plays no part.
-/

namespace ConsMachine

/-- The bytes of a text in UTF-8. -/
def utf8 (s : String) : List UInt8 :=
  s.toUTF8.data.toList

theorem utf8_eq (s : String) : utf8 s = s.toList.flatMap String.utf8EncodeChar := by
  conv_lhs => rw [← String.ofList_toList (s := s)]
  rw [utf8, String.toUTF8_eq_toByteArray, String.toByteArray_ofList, List.utf8Encode]
  simp

/-- Two sequences of bytes come to differ, and there the first has the lower byte. -/
def Precedes (l m : List UInt8) : Prop :=
  ∃ shared x y l' m', l = shared ++ x :: l' ∧ m = shared ++ y :: m' ∧ x < y

namespace Precedes

variable {l m : List UInt8}

theorem first {x y : UInt8} (h : x < y) (l m : List UInt8) : Precedes (x :: l) (y :: m) :=
  ⟨[], x, y, l, m, rfl, rfl, h⟩

theorem cons (h : Precedes l m) (x : UInt8) : Precedes (x :: l) (x :: m) := by
  obtain ⟨shared, y, z, l', m', rfl, rfl, hlt⟩ := h
  exact ⟨x :: shared, y, z, l', m', rfl, rfl, hlt⟩

theorem digit {a b : Nat} (hb : b < 256) (h : a < b ∨ a = b ∧ Precedes l m) :
    Precedes (UInt8.ofNat a :: l) (UInt8.ofNat b :: m) := by
  obtain hlt | ⟨rfl, h⟩ := h
  · refine .first ?_ l m
    rw [UInt8.lt_iff_toNat_lt, UInt8.toNat_ofNat', UInt8.toNat_ofNat']
    omega
  · exact h.cons _

/-- Whatever follows. -/
theorem append_lt_append (h : Precedes l m) (l' m' : List UInt8) : l ++ l' < m ++ m' := by
  obtain ⟨shared, x, y, l₁, m₁, rfl, rfl, hlt⟩ := h
  simp only [List.append_assoc, List.cons_append]
  exact List.append_left_lt (List.cons_lt_cons_iff.2 (.inl hlt))

end Precedes

/-- The `k` bytes that go on with a character: six bits each, the highest first. -/
def continuationBytes : Nat → Nat → List UInt8
  | 0, _ => []
  | k + 1, v => UInt8.ofNat (v / 64 ^ k % 64 + 128) :: continuationBytes k v

theorem continuationBytes_precedes {k v w : Nat} (hvw : v < w) (h : v / 64 ^ k = w / 64 ^ k) :
    Precedes (continuationBytes k v) (continuationBytes k w) := by
  induction k with
  | zero =>
    rw [Nat.pow_zero, Nat.div_one, Nat.div_one] at h
    exact absurd h (Nat.ne_of_lt hvw)
  | succ k ih =>
    have hle : v / 64 ^ k ≤ w / 64 ^ k := Nat.div_le_div_right (Nat.le_of_lt hvw)
    rw [Nat.pow_succ, ← Nat.div_div_eq_div_mul, ← Nat.div_div_eq_div_mul] at h
    refine .digit (by omega) ?_
    obtain hlt | heq := Nat.lt_or_eq_of_le hle
    · exact .inl (by omega)
    · exact .inr ⟨by rw [heq], ih heq⟩

/-- A greater character comes later in the order of the bytes. -/
theorem utf8EncodeChar_precedes {c d : Char} (h : c < d) :
    Precedes (String.utf8EncodeChar c) (String.utf8EncodeChar d) := by
  have hlt : c.val.toNat < d.val.toNat := UInt32.lt_iff_toNat_lt.1 h
  have hd : d.val.toNat ≤ 0x10ffff := by
    have hvalid : d.val.toNat.isValidChar := d.valid
    unfold Nat.isValidChar at hvalid
    omega
  simp only [String.utf8EncodeChar]
  generalize c.val.toNat = v at hlt ⊢
  generalize d.val.toNat = w at hlt hd ⊢
  have rest (k : Nat) : v / 64 ^ k < w / 64 ^ k ∨
      v / 64 ^ k = w / 64 ^ k ∧ Precedes (continuationBytes k v) (continuationBytes k w) :=
    (Nat.lt_or_eq_of_le (Nat.div_le_div_right (Nat.le_of_lt hlt))).imp_right fun heq =>
      ⟨heq, continuationBytes_precedes hlt heq⟩
  -- With fewer bytes, the first is lower; with as many, it has the highest digit.
  split_ifs <;> refine .digit (by omega) ?_ <;> try omega
  · have h1 := rest 1
    simp only [continuationBytes, Nat.reducePow, Nat.div_one] at h1
    exact h1.imp (fun hq => by omega) (.imp_left fun hq => by omega)
  · have h2 := rest 2
    simp only [continuationBytes, Nat.reducePow, Nat.div_one] at h2
    exact h2.imp (fun hq => by omega) (.imp_left fun hq => by omega)
  · have h3 := rest 3
    simp only [continuationBytes, Nat.reducePow, Nat.div_one] at h3
    exact h3.imp (fun hq => by omega) (.imp_left fun hq => by omega)

/-- Texts are in the order of their bytes. -/
theorem utf8_lt_utf8 {s t : String} (h : s < t) : utf8 s < utf8 t := by
  rw [utf8_eq, utf8_eq]
  replace h : List.Lex (· < ·) s.toList t.toList := h
  generalize s.toList = cs at h ⊢
  generalize t.toList = ds at h ⊢
  induction h with
  | @nil d ds =>
    obtain ⟨b, bs, hb⟩ := List.exists_cons_of_ne_nil (String.utf8EncodeChar_ne_nil (c := d))
    rw [List.flatMap_nil, List.flatMap_cons, hb]
    exact .nil
  | rel hlt =>
    rw [List.flatMap_cons, List.flatMap_cons]
    exact (utf8EncodeChar_precedes hlt).append_lt_append _ _
  | cons _ ih =>
    rw [List.flatMap_cons, List.flatMap_cons]
    exact List.append_left_lt ih

end ConsMachine
