import ConsMachine.Proofs.Comparison
import ConsMachine.Proofs.Reprinting
import ConsMachine.Proofs.Sameness

/-!
# The text of a value is its own

Readable values are equal by contents exactly if they are printed as the same text, however
deep they nest (`Value.Readable.print_eq_print_iff`). The reader is no help here, since it
gives up below its last level; what stands in for it is that a text which begins with the
text of a readable value begins with that of no other, by induction on the value
(`Value.Readable.startsUniquely`).

* The atoms of the grammar are told apart by their first token (`Atom.unique`), and so is a
  list, which begins with a parenthesis.
* The first item of a list is no closing parenthesis, so that a list with items is not
  written as the empty one; and an item is no lone dot, so that the tail is not taken for an
  item (`Value.Readable.text_ne_closing`, `Value.Readable.text_ne_dot`).
-/

namespace ConsMachine

variable {s t rest rest' : List Char} {d d' : Datum}

/-- A text begins with at most one atom. -/
theorem Atom.unique (h : Atom s d rest) (h' : Atom s d' rest') : d = d' ∧ rest = rest' := by
  obtain ⟨c, s, rfl⟩ := h.exists_cons
  have hscan := (Lexeme.scan_atom_iff.2 h).symm.trans (Lexeme.scan_atom_iff.2 h')
  obtain ⟨hd, hrest⟩ := Prod.mk.inj hscan
  exact ⟨Lexeme.atom.inj hd, hrest⟩

/-- An atom does not begin with a parenthesis. -/
theorem Atom.ne_opening (h : Atom s d rest) (t : List Char) : s ≠ '(' :: t := by
  rintro rfl
  have hscan := (Lexeme.scan_atom_iff.2 h).symm.trans
    ((Lexeme.scan_mark_iff (l := .opening) rfl).2 ⟨rfl, rfl⟩)
  cases (Prod.mk.inj hscan).1

namespace Value

variable {v w : Value}

/-! ### The beginning of a text -/

/-- A value is the empty list, a pair or another atom. -/
theorem eq_nil_or_pair_or_atom (v : Value) :
    v = nil ∨ (∃ id a b, v = pair id a b) ∨ v.isAtom = true ∧ v ≠ nil := by
  cases v with
  | nil => exact .inl rfl
  | pair id a b => exact .inr (.inl ⟨id, a, b, rfl⟩)
  | _ => exact .inr (.inr ⟨rfl, by rintro ⟨⟩⟩)

/-- The text of a value does not begin with a closing parenthesis. -/
theorem Readable.text_ne_closing (hv : v.Readable) (hrest : startsWord rest = false)
    (s : List Char) : v.text.toList ++ rest ≠ ')' :: s := by
  intro h
  obtain ⟨c, t, htext, hbegins⟩ := hv.beginsDatum hrest
  obtain ⟨rfl, rfl⟩ := List.cons.inj (htext.symm.trans h)
  exact hbegins.ne_closing (by rw [(Lexeme.scan_mark_iff (l := .closing) rfl).2 ⟨rfl, rfl⟩])

/-- The text of a value does not begin with a lone dot. -/
theorem Readable.text_ne_dot (hv : v.Readable) (hrest : startsWord rest = false)
    (s : List Char) : v.text.toList ++ rest ≠ '.' :: ' ' :: s := by
  intro h
  obtain ⟨c, t, htext, hbegins⟩ := hv.beginsDatum hrest
  obtain ⟨rfl, rfl⟩ := List.cons.inj (htext.symm.trans h)
  exact hbegins.ne_dot (by rw [Lexeme.scan_dot_iff.2 ⟨rfl, rfl, rfl⟩])

/-- The datum of an atom other than the empty list is found where its text stands. -/
theorem Readable.exists_atom (hv : v.Readable) (hatom : v.isAtom = true) (hnil : v ≠ nil)
    (hrest : startsWord rest = false) :
    ∃ d, v.datum? = some d ∧ Atom (v.atomText.toList ++ rest) d rest := by
  obtain ⟨d, hd⟩ := hv.exists_datum
  exact ⟨d, hd, hv.atom_atomText hd hatom hnil hrest⟩

/-- Atoms with the same text in front of what is no part of them are equal. -/
theorem Readable.equal_of_atomText (hv : v.Readable) (hw : w.Readable)
    (hvatom : v.isAtom = true ∧ v ≠ nil) (hwatom : w.isAtom = true ∧ w ≠ nil)
    (hrest : startsWord rest = false) (hrest' : startsWord rest' = false)
    (h : v.atomText.toList ++ rest = w.atomText.toList ++ rest') :
    v.Equal w ∧ rest = rest' := by
  obtain ⟨d, hd, hatom⟩ := hv.exists_atom hvatom.1 hvatom.2 hrest
  obtain ⟨e, he, hatom'⟩ := hw.exists_atom hwatom.1 hwatom.2 hrest'
  rw [h] at hatom
  obtain ⟨rfl, rfl⟩ := hatom.unique hatom'
  exact ⟨(equal_iff_of_datum? hd).2 he, rfl⟩

/-! ### The whole text -/

/-- A text that begins with the text of `v` begins with that of no other value. -/
def StartsUniquely (v : Value) : Prop :=
  ∀ w rest rest', w.Readable → startsWord rest = false → startsWord rest' = false →
    v.text.toList ++ rest = w.text.toList ++ rest' → v.Equal w ∧ rest = rest'

/-- A text that begins with that of `v` as the rest of a list begins with that of no other
    value as the rest of a list. -/
def GoesOnUniquely (v : Value) : Prop :=
  ∀ w rest rest', w.Readable →
    v.restText.toList ++ rest = w.restText.toList ++ rest' → v.Equal w ∧ rest = rest'

/-- The text of the empty list. -/
theorem text_nil_append (rest : List Char) : nil.text.toList ++ rest = '(' :: ')' :: rest := rfl

theorem restText_nil_append (rest : List Char) : nil.restText.toList ++ rest = ')' :: rest := rfl

theorem startsUniquely_nil : nil.StartsUniquely := by
  intro w rest rest' hw _ hrest' h
  rw [text_nil_append] at h
  rcases w.eq_nil_or_pair_or_atom with rfl | ⟨id, a, b, rfl⟩ | ⟨hatom, hnil⟩
  · rw [text_nil_append, List.cons.injEq, List.cons.injEq] at h
    exact ⟨.refl nil, h.2.2⟩
  · rw [text_pair, List.cons.injEq] at h
    exact absurd h.2.symm (hw.1.text_ne_closing (startsWord_restText b rest') rest)
  · obtain ⟨d, _, hd⟩ := hw.exists_atom hatom hnil hrest'
    rw [text_of_isAtom hatom] at h
    exact absurd h.symm (hd.ne_opening _)

theorem goesOnUniquely_nil : nil.GoesOnUniquely := by
  intro w rest rest' hw h
  rw [restText_nil_append] at h
  rcases w.eq_nil_or_pair_or_atom with rfl | ⟨id, a, b, rfl⟩ | ⟨hatom, hnil⟩
  · exact ⟨.refl nil, (List.cons.inj h).2⟩
  · rw [restText_pair] at h
    cases h
  · rw [restText_of_isAtom hatom hnil] at h
    cases h

theorem Readable.startsUniquely_atom (hv : v.Readable) (hatom : v.isAtom = true)
    (hnil : v ≠ nil) : v.StartsUniquely := by
  intro w rest rest' hw hrest hrest' h
  obtain ⟨d, _, hd⟩ := hv.exists_atom hatom hnil hrest
  rw [text_of_isAtom hatom] at h
  rcases w.eq_nil_or_pair_or_atom with rfl | ⟨id, a, b, rfl⟩ | hwatom
  · exact absurd h (hd.ne_opening _)
  · rw [text_pair] at h
    exact absurd h (hd.ne_opening _)
  · rw [text_of_isAtom hwatom.1] at h
    exact hv.equal_of_atomText hw ⟨hatom, hnil⟩ hwatom hrest hrest' h

theorem Readable.goesOnUniquely_atom (hv : v.Readable) (hatom : v.isAtom = true)
    (hnil : v ≠ nil) : v.GoesOnUniquely := by
  intro w rest rest' hw h
  rw [restText_of_isAtom hatom hnil] at h
  rcases w.eq_nil_or_pair_or_atom with rfl | ⟨id, a, b, rfl⟩ | hwatom
  · cases h
  · rw [restText_pair, List.cons.injEq] at h
    exact absurd h.2.symm (hw.1.text_ne_dot (startsWord_restText b rest') _)
  · rw [restText_of_isAtom hwatom.1 hwatom.2] at h
    simp only [List.cons.injEq, true_and] at h
    obtain ⟨hequal, hrest⟩ := hv.equal_of_atomText hw ⟨hatom, hnil⟩ hwatom rfl rfl h
    exact ⟨hequal, (List.cons.inj hrest).2⟩

variable {a b : Value}

/-- The item and the rest of a list are told apart in its text. -/
theorem StartsUniquely.item {a' b' : Value} (ha : a.StartsUniquely) (hb : b.GoesOnUniquely)
    (ha' : a'.Readable) (hb' : b'.Readable)
    (h : a.text.toList ++ (b.restText.toList ++ rest) =
      a'.text.toList ++ (b'.restText.toList ++ rest')) (id id' : Nat) :
    (pair id a b).Equal (pair id' a' b') ∧ rest = rest' := by
  obtain ⟨hitem, htail⟩ := ha a' _ _ ha' (startsWord_restText b rest)
    (startsWord_restText b' rest') h
  obtain ⟨hequal, hrest⟩ := hb b' rest rest' hb' htail
  exact ⟨⟨hitem, hequal⟩, hrest⟩

theorem StartsUniquely.pair (hra : a.Readable) (ha : a.StartsUniquely) (hb : b.GoesOnUniquely)
    (id : Nat) : (pair id a b).StartsUniquely := by
  intro w rest rest' hw _ hrest' h
  rw [text_pair] at h
  rcases w.eq_nil_or_pair_or_atom with rfl | ⟨id', a', b', rfl⟩ | ⟨hatom, hnil⟩
  · rw [text_nil_append, List.cons.injEq] at h
    exact absurd h.2 (hra.text_ne_closing (startsWord_restText b rest) rest')
  · rw [text_pair, List.cons.injEq] at h
    exact ha.item hb hw.1 hw.2 h.2 id id'
  · obtain ⟨d, _, hd⟩ := hw.exists_atom hatom hnil hrest'
    rw [text_of_isAtom hatom] at h
    exact absurd h.symm (hd.ne_opening _)

theorem GoesOnUniquely.pair (hra : a.Readable) (ha : a.StartsUniquely)
    (hb : b.GoesOnUniquely) (id : Nat) : (pair id a b).GoesOnUniquely := by
  intro w rest rest' hw h
  rw [restText_pair] at h
  rcases w.eq_nil_or_pair_or_atom with rfl | ⟨id', a', b', rfl⟩ | ⟨hatom, hnil⟩
  · cases h
  · rw [restText_pair, List.cons.injEq] at h
    exact ha.item hb hw.1 hw.2 h.2 id id'
  · rw [restText_of_isAtom hatom hnil, List.cons.injEq] at h
    exact absurd h.2 (hra.text_ne_dot (startsWord_restText b rest) _)

/-- By induction on the pairs of a readable value: its text, whatever stands behind it, is
    that of no other value. -/
theorem Readable.startsUniquely (hv : v.Readable) : v.StartsUniquely ∧ v.GoesOnUniquely := by
  induction v with
  | pair id a b iha ihb =>
    obtain ⟨hra, hrb⟩ := hv
    have ha := (iha hra).1
    have hb := (ihb hrb).2
    exact ⟨.pair hra ha hb id, .pair hra ha hb id⟩
  | nil => exact ⟨startsUniquely_nil, goesOnUniquely_nil⟩
  | _ =>
    exact ⟨hv.startsUniquely_atom rfl (by rintro ⟨⟩), hv.goesOnUniquely_atom rfl (by rintro ⟨⟩)⟩

/-- Values that are equal by contents have the same text. -/
theorem Equal.print_eq (h : v.Equal w) (hv : v.Readable) : v.print = w.print := by
  obtain ⟨d, hd⟩ := hv.exists_datum
  rw [print_eq_text, print_eq_text]
  exact (text_eq_of_datum? hd ((equal_iff_of_datum? hd).1 h)).1

theorem Readable.print_eq_iff_Equal (hv : v.Readable) (hw : w.Readable) :
    v.print = w.print ↔ v.Equal w := by
  refine ⟨fun h => ?_, fun h => h.print_eq hv⟩
  rw [print_eq_text, print_eq_text] at h
  exact (hv.startsUniquely.1 w [] [] hw rfl rfl (by rw [h])).1

/-- Printing is faithful at any depth: readable values have the same text exactly if they
    are equal by contents. This is what the work list finds too, for values that agree on the
    pairs that they share, and so for all values of a world. -/
theorem Readable.print_eq_print_iff (hv : v.Readable) (hw : w.Readable) :
    (v.print = w.print ↔ v.Equal w) ∧
      (v.Agree w → (v.print = w.print ↔ v.equal w = true)) ∧
      ∀ W : World, W.Reachable → W.Has v → W.Has w → (v.print = w.print ↔ v.equal w = true) := by
  have hprint := hv.print_eq_iff_Equal hw
  refine ⟨hprint, fun hagree => ?_, fun W hW hWv hWw => ?_⟩
  · rw [hprint, equal_iff_of_agree hagree]
  · rw [hprint, equal_iff_of_agree (hW.agree hWv hWw)]

end Value

/-! ### A deep value and a copy -/

namespace World

/-- A host can always make a pair of what it has. -/
theorem Reachable.exists_cons {W : World} {a d : Value} (hW : W.Reachable) (ha : W.Has a)
    (hd : W.Has d) :
    ∃ W' : World, W'.Reachable ∧ W'.held = .pair W.session.nextObject a d :: W.held ∧
      W'.session.nextObject = W.session.nextObject + 1 := by
  have hoperands : ∀ u ∈ (Construction.cons a d).operands, W.Has u := by
    simp [Construction.operands, ha, hd]
  exact ⟨_, hW.act (.construct hoperands (Session.alloc_eq_ok_iff.2 ⟨_, rfl, rfl⟩)), rfl, rfl⟩

theorem Has.nil (W : World) : W.Has .nil :=
  .inl rfl

theorem exists_reachable_nested (n : Nat) :
    ∃ W : World, W.Reachable ∧ W.Has (.nested n) ∧ W.session.nextObject = n := by
  induction n with
  | zero => exact ⟨_, .empty, .nil _, rfl⟩
  | succ n ih =>
    obtain ⟨W, hW, hv, hnext⟩ := ih
    obtain ⟨W', hW', hheld, hnext'⟩ := hW.exists_cons hv (.nil W)
    rw [hnext] at hheld hnext'
    exact ⟨W', hW', .of_held (hheld ▸ List.mem_cons_self), hnext'⟩

end World

/-- A value that nests deeper than the reader goes, a copy of its outermost list, and the
    same with another tail. -/
theorem Value.print_eq_print_nested :
    let v := nested 100
    let w : Value := .pair 100 (nested 99) nil
    v.Readable ∧ w.Readable ∧ maxNesting < v.nest ∧ v.same w = false ∧
      (∃ W : World, W.Reachable ∧ W.Has v ∧ W.Has w) ∧ v.Agree w ∧
      v.print = w.print ∧ v.equal w = true ∧
      v.print ≠ (Value.pair 101 (nested 99) (.number 1)).print := by
  intro v w
  have hv : v.Readable := readable_nested 100
  have hw : w.Readable := ⟨readable_nested 99, trivial⟩
  obtain ⟨W, hW, hnested, hnext⟩ := World.exists_reachable_nested 99
  obtain ⟨W₁, hW₁, hheld₁, hnext₁⟩ := hW.exists_cons hnested (.nil W)
  rw [hnext] at hheld₁ hnext₁
  have hv₁ : v ∈ W₁.held := hheld₁ ▸ List.mem_cons_self
  obtain ⟨W₂, hW₂, hheld₂, _⟩ := hW₁.exists_cons (.inr ⟨v, .held hv₁, .car (.self _)⟩) (.nil W₁)
  rw [hnext₁] at hheld₂
  have hWv : W₂.Has v := .of_held (hheld₂ ▸ List.mem_cons_of_mem _ hv₁)
  have hWw : W₂.Has w := .of_held (hheld₂ ▸ List.mem_cons_self)
  have hagree : v.Agree w := hW₂.agree hWv hWw
  have hequal : v.Equal w := ⟨.refl _, rfl⟩
  obtain ⟨_, hwork, hworld⟩ := hv.print_eq_print_iff hw
  have hprint : v.print = w.print := (hwork hagree).2 hequal.equal
  refine ⟨hv, hw, ?_, rfl, ⟨W₂, hW₂, hWv, hWw⟩, hagree, hprint,
    (hworld W₂ hW₂ hWv hWw).1 hprint, fun h => ?_⟩
  · rw [nest_nested]
    decide
  · have hother : (Value.pair 101 (nested 99) (.number 1)).Readable :=
      ⟨readable_nested 99, trivial⟩
    obtain ⟨_, htail⟩ := (hv.print_eq_print_iff hother).1.1 h
    cases htail

end ConsMachine
