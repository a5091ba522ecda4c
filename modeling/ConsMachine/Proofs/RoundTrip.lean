import ConsMachine.Proofs.Reading
import ConsMachine.Value.Text

/-!
# Reading what was printed

A value is *readable* if only atoms that can be written down and pairs are in it
(`Value.Readable`). Its text is a text of the grammar and denotes it, as long as it
nests no deeper than the reader goes (`Readable.denotes`); if it nests deeper, the
reader gives up at the first item below the last level, whatever stands before it
(`Readable.tooDeep`).

Nesting is counted in lists: an atom is one level, and a list is one level more
than the deepest of its items (`Value.nest_eq`). The tail of a list does not count,
it stands at the level of the items.
-/

namespace ConsMachine

/-! ### Readable values -/

namespace Value

/-- Values that can be written down: no functions and no continuations, and only
    symbols whose name is a word for a symbol. -/
def Readable : Value → Prop
  | nil | bool _ | number _ => True
  | symbol name => (∀ c ∈ name.toList, isWordChar c = true) ∧ isSymbolName name.toList = true
  | pair _ a d => a.Readable ∧ d.Readable
  | _ => False

/-- The levels within the lists in a value: none in an atom. -/
def innerNest : Value → Nat
  | pair _ a d => max (1 + a.innerNest) d.innerNest
  | _ => 0

/-- The levels of lists in a value, with one for the atoms. -/
def nest (v : Value) : Nat :=
  1 + v.innerNest

/-- A list is one level more than its deepest item. -/
theorem nest_eq (v : Value) : v.nest = 1 + (v.items.map nest).foldr max 0 := by
  rw [nest]
  congr 1
  induction v with
  | pair id a d _ ihd => rw [innerNest, items_pair, ihd]; rfl
  | _ => rfl

theorem Readable.exists_datum {v : Value} (h : v.Readable) : ∃ d, v.datum? = some d := by
  induction v with
  | pair id a d iha ihd =>
    obtain ⟨x, hx⟩ := iha h.1
    obtain ⟨y, hy⟩ := ihd h.2
    exact ⟨.pair x y, datum?_pair_eq_some_iff.2 ⟨x, y, hx, hy, rfl⟩⟩
  | native | closure | continuation | apply => exact h.elim
  | _ => exact ⟨_, rfl⟩

end Value

open Value

/-! ### Atoms -/

theorem isWordChar_of_isDigit {c : Char} (h : c.isDigit = true) : isWordChar c = true := by
  simp [isWordChar, isAlphanumeric_of_isAlphanum, Char.isAlphanum, h]

variable {rest : List Char}

/-- A numeral is a word. -/
theorem Numeral.isRun {w : List Char} {i : Int} (h : Numeral w i) (hrest : startsWord rest = false) :
    IsRun w rest := by
  have hdigits {ds : List Char} (hds : ∀ c ∈ ds, c.isDigit = true) (c : Char) (hc : c ∈ ds) :
      isWordChar c = true :=
    isWordChar_of_isDigit (hds c hc)
  cases h with
  | unsigned hne hds => exact ⟨hne, hdigits hds, hrest⟩
  | plus _ hds | minus _ hds =>
    exact ⟨List.cons_ne_nil _ _, List.forall_mem_cons.2 ⟨by decide, hdigits hds⟩, hrest⟩

/-- The decimal text of a number is a numeral of it. -/
theorem Number.numeral_text (n : Int64) : Numeral (Number.text n).toList n.toInt := by
  have hne : n.toInt.natAbs.repr.toList ≠ [] := by simp [Nat.toDigits_ne_nil]
  have hds (c : Char) (hc : c ∈ n.toInt.natAbs.repr.toList) : c.isDigit = true := by
    rw [Nat.toList_repr] at hc
    exact Nat.isDigit_of_mem_toDigits (by decide) (by decide) hc
  have hvalue : Nat.ofDigitChars 10 n.toInt.natAbs.repr.toList 0 = n.toInt.natAbs := by
    rw [Nat.toList_repr]
    exact Nat.ofDigitChars_toDigits (by decide) (by decide)
  unfold Number.text
  split
  · have h := Numeral.minus hne hds
    rw [hvalue, show -(n.toInt.natAbs : Int) = n.toInt by omega] at h
    rw [String.toList_append]
    exact h
  · have h := Numeral.unsigned hne hds
    rwa [hvalue, show (n.toInt.natAbs : Int) = n.toInt by omega] at h

/-- An atom other than the empty list is written as an atom of the grammar. -/
theorem Value.Readable.atom_atomText {v : Value} {d : Datum} (hv : v.Readable)
    (hd : v.datum? = some d) (hatom : v.isAtom = true) (hnil : v ≠ nil)
    (hrest : startsWord rest = false) : Atom (v.atomText.toList ++ rest) d rest := by
  cases v with
  | nil => exact absurd rfl hnil
  | pair => cases hatom
  | native | closure | continuation | apply => exact hv.elim
  | bool b =>
    cases hd
    cases b with
    | true => exact .true hrest
    | false => exact .false hrest
  | number n =>
    cases hd
    have h := Number.numeral_text n
    exact .number (h.isRun hrest) h
  | symbol name =>
    cases hd
    obtain ⟨hchars, hname⟩ := hv
    have hne : name.toList ≠ [] := by
      intro h
      rw [h] at hname
      cases hname
    have hnum (n : Int64) (h : Numeral name.toList n.toInt) : False := by
      rw [h.isSymbolName_eq_false] at hname
      cases hname
    have h := Atom.symbol ⟨hne, hchars, hrest⟩ hnum hname
    rwa [String.ofList_toList] at h

/-! ### Texts -/

theorem Skips.space (s : List Char) : Skips (' ' :: s) s :=
  .blank rfl (.refl s)

/-- A value that is not a pair is written as an atom. -/
theorem Value.text_of_isAtom {v : Value} (h : v.isAtom = true) : v.text = v.atomText := by
  cases v with
  | pair => cases h
  | _ => rfl

theorem Value.restText_of_isAtom {v : Value} (h : v.isAtom = true) (hnil : v ≠ nil) :
    v.restText.toList ++ rest = ' ' :: '.' :: ' ' :: (v.atomText.toList ++ ')' :: rest) := by
  have : v.restText = " . " ++ v.atomText ++ ")" := by
    cases v with
    | nil => exact absurd rfl hnil
    | pair => cases h
    | _ => rfl
  simp [this]

theorem Value.text_pair (id : Nat) (a d : Value) (rest : List Char) :
    (pair id a d).text.toList ++ rest = '(' :: (a.text.toList ++ (d.restText.toList ++ rest)) := by
  simp [text]

theorem Value.restText_pair (id : Nat) (a d : Value) (rest : List Char) :
    (pair id a d).restText.toList ++ rest =
      ' ' :: (a.text.toList ++ (d.restText.toList ++ rest)) := by
  simp [restText]

/-- No word goes on into the rest of a list. -/
theorem Value.startsWord_restText (v : Value) (rest : List Char) :
    startsWord (v.restText.toList ++ rest) = false := by
  cases v with
  | nil => simp [restText, startsWord, isWordChar_eq_false_of_mem]
  | pair id a d =>
    rw [restText_pair]
    exact isWordChar_eq_false_of_mem (by simp)
  | _ =>
    rw [restText_of_isAtom rfl (by rintro ⟨⟩)]
    exact isWordChar_eq_false_of_mem (by simp)

/-! ### Values that fit -/

/-- The rest of a list behind some of its items (the latest first), up to its closing
    parenthesis, and the datum that the whole list denotes. -/
inductive EndsList (depth : Nat) (items : List Datum) : List Char → Datum → List Char → Prop
  | list {s rest : List Char} {ds : List Datum} : Items depth s ds (')' :: rest) →
      EndsList depth items s (.ofList (items.reverse ++ ds) .nil) rest
  | dotted {s t u v rest : List Char} {ds : List Datum} {tail : Datum} :
      Items depth s ds ('.' :: t) → items.reverse ++ ds ≠ [] → startsWord t = false →
      Skips t u → Denotes depth u tail v → Skips v (')' :: rest) →
      EndsList depth items s (.ofList (items.reverse ++ ds) tail) rest

namespace EndsList

variable {depth : Nat} {items : List Datum} {s t u rest : List Char} {x y : Datum}

/-- One more item. -/
theorem cons (hs : Skips s t) (hx : Denotes depth t x u)
    (h : EndsList depth (x :: items) u y rest) : EndsList depth items s y rest := by
  cases h with
  | list hds =>
    rw [List.reverse_cons, List.append_assoc]
    exact .list (.cons hs hx hds)
  | dotted hds hne hdot ht htail hclose =>
    rw [List.reverse_cons, List.append_assoc] at hne ⊢
    exact .dotted (.cons hs hx hds) hne hdot ht htail hclose

theorem denotes (hlt : depth < maxNesting) (h : EndsList (depth + 1) [] s y rest) :
    Denotes depth ('(' :: s) y rest := by
  cases h with
  | list hds => exact .list hlt hds
  | dotted hds hne hdot ht htail hclose => exact .dotted hlt hds hne hdot ht htail hclose

end EndsList

namespace Value

/-- The text of `v` denotes `d`, wherever the lists in `v` fit. -/
def Writes (v : Value) (d : Datum) : Prop :=
  ∀ depth rest, depth + v.nest ≤ maxNesting → startsWord rest = false →
    Denotes depth (v.text.toList ++ rest) d rest

/-- The text of `v` as the rest of a list ends the list with `d`, wherever the lists
    in `v` fit. -/
def WritesRest (v : Value) (d : Datum) : Prop :=
  ∀ depth items rest, depth < maxNesting → depth + v.innerNest ≤ maxNesting → items ≠ [] →
    EndsList depth items (v.restText.toList ++ rest) (.ofList items.reverse d) rest

variable {a b v : Value} {x y d : Datum}

theorem Writes.pair (ha : a.Writes x) (hb : b.WritesRest y) (id : Nat) :
    (pair id a b).Writes (.pair x y) := by
  intro depth rest hle _
  simp only [nest, innerNest] at hle
  rw [text_pair]
  have hitem := ha (depth + 1) (b.restText.toList ++ rest) (by simp only [nest]; omega)
    (startsWord_restText b rest)
  have hends := hb (depth + 1) [x] rest (by omega) (by omega) (List.cons_ne_nil x [])
  exact (EndsList.cons (.refl _) hitem hends).denotes (by omega)

theorem WritesRest.pair (ha : a.Writes x) (hb : b.WritesRest y) (id : Nat) :
    (pair id a b).WritesRest (.pair x y) := by
  intro depth items rest hlt hle hne
  simp only [innerNest] at hle
  rw [restText_pair]
  have hitem := ha depth (b.restText.toList ++ rest) (by simp only [nest]; omega)
    (startsWord_restText b rest)
  have hends := hb depth (x :: items) rest hlt (by omega) (List.cons_ne_nil x items)
  have hlist : Datum.ofList (x :: items).reverse y = .ofList items.reverse (.pair x y) := by
    simp [Datum.ofList]
  rw [hlist] at hends
  exact .cons (.space _) hitem hends

theorem writes_nil : nil.Writes .nil := by
  intro depth rest hle _
  exact .list (by simp only [nest] at hle; omega) (.nil (.refl _))

theorem writesRest_nil : nil.WritesRest .nil := by
  intro depth items rest _ _ _
  have hends : EndsList depth items (')' :: rest) _ rest := .list (.nil (.refl _))
  rwa [List.append_nil] at hends

theorem Readable.writes_atom (hv : v.Readable) (hd : v.datum? = some d) (hatom : v.isAtom = true)
    (hnil : v ≠ nil) : v.Writes d := by
  intro depth rest hle hstart
  rw [text_of_isAtom hatom]
  exact .atom (by simp only [nest] at hle; omega) (hv.atom_atomText hd hatom hnil hstart)

theorem Readable.writesRest_atom (hv : v.Readable) (hd : v.datum? = some d)
    (hatom : v.isAtom = true) (hnil : v ≠ nil) : v.WritesRest d := by
  intro depth items rest hlt _ hne
  rw [restText_of_isAtom hatom hnil]
  have htail := Denotes.atom hlt (@atom_atomText (')' :: rest) _ _ hv hd hatom hnil rfl)
  have hends : EndsList depth items _ _ rest :=
    .dotted (.nil (.space _)) (by simpa) rfl (.space _) htail (.refl _)
  rwa [List.append_nil] at hends

/-- A readable value is written as a text that denotes it. -/
theorem Readable.writes (hv : v.Readable) (hd : v.datum? = some d) :
    v.Writes d ∧ v.WritesRest d := by
  induction v generalizing d with
  | pair id a b iha ihb =>
    obtain ⟨x, y, hx, hy, rfl⟩ := datum?_pair_eq_some_iff.1 hd
    have ha := (iha hv.1 hx).1
    have hb := (ihb hv.2 hy).2
    exact ⟨ha.pair hb id, .pair ha hb id⟩
  | nil =>
    cases hd
    exact ⟨writes_nil, writesRest_nil⟩
  | native | closure | continuation | apply => exact hv.elim
  | _ => exact ⟨hv.writes_atom hd rfl (by rintro ⟨⟩), hv.writesRest_atom hd rfl (by rintro ⟨⟩)⟩

end Value

/-! ### Values that are too deep -/

open Reader

theorem Reader.beginWithin_of_tooDeep {frames : List Frame} (h : maxNesting ≤ frames.length)
    (c : Char) (s : List Char) : beginWithin frames c s = .error ⟨.tooDeep, c :: s⟩ := by
  rw [beginWithin, begin, if_pos h]
  rfl

namespace Value

/-- The text of `v` is given up wherever the lists in `v` do not fit. -/
def Overflows (v : Value) : Prop :=
  ∀ frames rest, Open frames → maxNesting < frames.length + v.nest → startsWord rest = false →
    ∃ t, readWithin frames (v.text.toList ++ rest) = .error ⟨.tooDeep, t⟩

/-- The text of `v` as the rest of a list is given up wherever the lists in `v` do not
    fit. -/
def OverflowsRest (v : Value) : Prop :=
  ∀ frames items rest, frames.length < maxNesting → maxNesting < frames.length + 1 + v.innerNest →
    ∃ t, readWithin (.list items :: frames) (v.restText.toList ++ rest) = .error ⟨.tooDeep, t⟩

variable {a b v : Value}

/-- The text of a readable value begins a datum. -/
theorem Readable.beginsDatum (hv : v.Readable) {rest : List Char} (hrest : startsWord rest = false) :
    ∃ c s, v.text.toList ++ rest = c :: s ∧ BeginsDatum c s := by
  cases v with
  | nil => exact ⟨'(', _, rfl, .of_mark (.inl rfl) rfl⟩
  | pair id a b => exact ⟨'(', _, text_pair id a b rest, .of_mark (.inl rfl) rfl⟩
  | native | closure | continuation | apply => exact hv.elim
  | _ =>
    obtain ⟨d, hd⟩ := hv.exists_datum
    have h := hv.atom_atomText hd rfl (by rintro ⟨⟩) hrest
    obtain ⟨c, s, heq⟩ := h.exists_cons
    rw [heq] at h
    exact ⟨c, s, heq, .of_atom h⟩

/-- An item and the rest of its list are given up if either does not fit. -/
theorem Overflows.item (hra : a.Readable) (ha : a.Overflows) (hb : b.OverflowsRest)
    {frames : List Frame} (hlt : frames.length < maxNesting)
    (hover : maxNesting < frames.length + 1 + max a.nest b.innerNest) (items : List Datum)
    (rest : List Char) :
    ∃ t, readWithin (.list items :: frames) (a.text.toList ++ (b.restText.toList ++ rest)) =
      .error ⟨.tooDeep, t⟩ := by
  have hopen : Open (.list items :: frames) := by rintro _ _ _ ⟨⟩
  by_cases hfits : frames.length + 1 + a.nest ≤ maxNesting
  · -- The item is read, and it is the rest that does not fit.
    obtain ⟨x, hx⟩ := hra.exists_datum
    have hitem := (hra.writes hx).1 _ _ hfits (startsWord_restText b rest)
    obtain ⟨c, s, heq, hc, hbegin⟩ := hitem.begin_eq (.list items :: frames) rfl
    rw [heq, hc.readWithin_eq hopen, hbegin, placeWithin_list]
    exact hb frames (x :: items) rest hlt (by omega)
  · exact ha _ _ hopen (by simpa using hfits) (startsWord_restText b rest)

theorem Overflows.pair (hra : a.Readable) (ha : a.Overflows) (hb : b.OverflowsRest) (id : Nat) :
    (pair id a b).Overflows := by
  intro frames rest hopen hover hrest
  rw [text_pair]
  have hc : BeginsDatum '(' (a.text.toList ++ (b.restText.toList ++ rest)) :=
    .of_mark (.inl rfl) rfl
  rw [hc.readWithin_eq hopen]
  by_cases hlt : frames.length < maxNesting
  · rw [beginWithin_opening hlt ((Lexeme.scan_mark_iff rfl).2 ⟨rfl, rfl⟩)]
    refine ha.item hra hb hlt ?_ [] rest
    simp only [nest, innerNest] at hover ⊢
    omega
  · exact ⟨_, beginWithin_of_tooDeep (Nat.le_of_not_lt hlt) _ _⟩

theorem OverflowsRest.pair (hra : a.Readable) (ha : a.Overflows) (hb : b.OverflowsRest)
    (id : Nat) : (pair id a b).OverflowsRest := by
  intro frames items rest hlt hover
  rw [restText_pair, readWithin_skips (.space _)]
  exact ha.item hra hb hlt hover items rest

theorem Readable.overflows_atom (hv : v.Readable) (hinner : v.innerNest = 0) : v.Overflows := by
  intro frames rest hopen hover hrest
  obtain ⟨c, s, heq, hc⟩ := hv.beginsDatum hrest
  rw [heq, hc.readWithin_eq hopen]
  simp only [nest, hinner] at hover
  exact ⟨_, beginWithin_of_tooDeep (by omega) c s⟩

theorem overflowsRest_atom (hinner : v.innerNest = 0) : v.OverflowsRest := by
  intro frames items rest hlt hover
  omega

/-- A readable value that does not fit is given up. -/
theorem Readable.overflows (hv : v.Readable) : v.Overflows ∧ v.OverflowsRest := by
  induction v with
  | pair id a b iha ihb =>
    obtain ⟨hra, hrb⟩ := hv
    have ha := (iha hra).1
    have hb := (ihb hrb).2
    exact ⟨.pair hra ha hb id, .pair hra ha hb id⟩
  | _ => exact ⟨hv.overflows_atom rfl, overflowsRest_atom rfl⟩

end Value

/-! ### Reading back -/

/-- Reading undoes printing, up to the levels the reader has: a value that fits is
    read back as an equal one, and one that does not fit is too deeply nested. -/
theorem Value.Readable.read_print {v : Value} (hv : v.Readable) (next : Nat) :
    (v.nest ≤ maxNesting →
      ∃ w next', Alloc.read v.print next = .ok (w, next') ∧ w.Equal v ∧ w.equal v = true) ∧
    (maxNesting < v.nest →
      ∃ e, Alloc.read v.print next = .error (.read e) ∧ e.kind = .tooDeeplyNested) := by
  rw [print_eq_text]
  constructor
  · intro hle
    obtain ⟨d, hd⟩ := hv.exists_datum
    have hdenotes := (hv.writes hd).1 0 [] (by omega) rfl
    rw [List.append_nil] at hdenotes
    have hread := Datum.read_eq_ok_iff.2 ⟨_, [], .refl _, hdenotes, .refl []⟩
    have hequal := (equal_iff_of_datum? (datum?_load d next)).2 hd
    exact ⟨_, _, by rw [Alloc.read_eq, hread], hequal, hequal.equal⟩
  · intro hlt
    obtain ⟨t, ht⟩ := hv.overflows.1 [] [] (by rintro _ _ _ ⟨⟩) (by simpa using hlt) rfl
    rw [List.append_nil] at ht
    have hread : Datum.read v.text = .error (Fault.report v.text.toList ⟨.tooDeep, t⟩) :=
      congrArg (Except.mapError (Fault.report v.text.toList)) ht
    exact ⟨_, by rw [Alloc.read_eq, hread], rfl⟩

/-- The empty list within `n` lists of one item. -/
def Value.nested : Nat → Value
  | 0 => nil
  | n + 1 => pair n (nested n) nil

theorem Value.readable_nested (n : Nat) : (nested n).Readable := by
  induction n with
  | zero => trivial
  | succ n ih => exact ⟨ih, trivial⟩

theorem Value.nest_nested (n : Nat) : (nested n).nest = n + 1 := by
  induction n with
  | zero => rfl
  | succ n ih =>
    simp only [nest, nested, innerNest] at ih ⊢
    omega

/-- The last level that is read back, and the first that is not. -/
theorem Value.read_print_nested :
    (∃ w next', Alloc.read (nested 63).print 0 = .ok (w, next') ∧ w.Equal (nested 63) ∧
      w.equal (nested 63) = true) ∧
    (∃ e, Alloc.read (nested 64).print 0 = .error (.read e) ∧ e.kind = .tooDeeplyNested) :=
  ⟨((readable_nested 63).read_print 0).1 (by rw [nest_nested]; decide),
    ((readable_nested 64).read_print 0).2 (by rw [nest_nested]; decide)⟩

end ConsMachine
