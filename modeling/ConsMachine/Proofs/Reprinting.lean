import ConsMachine.Proofs.RoundTrip

/-!
# Printing what was read

Printing rewrites a text: comments go, blanks become single spaces, `'x` is spelt out,
and a tail that is a list is written as items of its list. The values stay the same:
whatever the reader accepts is readable and nests no deeper than the reader goes, so
that its text is read back as an equal value, which has the same text
(`Alloc.read_survives`).

The nesting never grows on the way. A datum that the grammar has within `depth` lists
and quote marks fits there (`Denotes.fits`): a quote mark counts as one level, as the
list does that it stands for, and a tail stands one level below the dot while its items
are printed at the level of the list.
-/

namespace ConsMachine

namespace Value

/-! ### Values of one datum -/

variable {v w : Value} {d : Datum}

theorem eq_of_datum?_of_isAtom (hv : v.datum? = some d) (hw : w.datum? = some d)
    (hatom : v.isAtom = true) : w = v := by
  cases v with
  | pair => cases hatom
  | native | closure | continuation | apply => cases hv
  | _ =>
    cases hv
    cases w with
    | pair => obtain ⟨_, _, _, _, ⟨⟩⟩ := datum?_pair_eq_some_iff.1 hw
    | _ => cases hw <;> rfl

/-- The text of a value depends on its datum only. -/
theorem text_eq_of_datum? (hv : v.datum? = some d) (hw : w.datum? = some d) :
    v.text = w.text ∧ v.restText = w.restText := by
  induction v generalizing w d with
  | pair id a b iha ihb =>
    obtain ⟨x, y, hx, hy, rfl⟩ := datum?_pair_eq_some_iff.1 hv
    cases w with
    | pair id' a' b' =>
      obtain ⟨_, _, hx', hy', ⟨⟩⟩ := datum?_pair_eq_some_iff.1 hw
      rw [text, text, restText, restText, (iha hx hx').1, (ihb hy hy').2]
      exact ⟨rfl, rfl⟩
    | _ => cases hw
  | _ =>
    rw [eq_of_datum?_of_isAtom hv hw rfl]
    exact ⟨rfl, rfl⟩

/-- A value of a list of data is a list of values of these. -/
theorem exists_list_of_datum? {ds : List Datum} (h : v.datum? = some (.ofList ds .nil)) :
    ∃ vs, v.list? = some vs ∧ vs.map datum? = ds.map some := by
  induction ds generalizing v with
  | nil => exact ⟨[], by rw [eq_of_datum?_of_isAtom (v := nil) rfl h rfl]; rfl, rfl⟩
  | cons d ds ih =>
    cases v with
    | pair id a b =>
      obtain ⟨x, y, hx, hy, heq⟩ := datum?_pair_eq_some_iff.1 h
      obtain ⟨rfl, rfl⟩ := Datum.pair.inj heq
      obtain ⟨vs, hvs, hmap⟩ := ih hy
      refine ⟨a :: vs, ?_, by rw [List.map_cons, List.map_cons, hx, hmap]⟩
      unfold list? at hvs ⊢
      split at hvs
      · rename_i htail
        cases hvs
        rw [tail_pair, if_pos htail, items_pair]
      · cases hvs
    | _ => cases h

/-- A value that can be written down and fits is written as a text that denotes it. -/
theorem Readable.spells (hv : v.Readable) (hd : v.datum? = some d) (hle : v.nest ≤ maxNesting) :
    Spells v.text.toList d := by
  have hdenotes := (hv.writes hd).1 0 [] (by omega) rfl
  rw [List.append_nil] at hdenotes
  exact ⟨_, [], .refl _, hdenotes, .refl []⟩

/-- The text of a value is read back as an equal value, with the same text. -/
def ReadsBack (v : Value) : Prop :=
  ∀ next, ∃ w next', Alloc.read v.print next = .ok (w, next') ∧ w.Equal v ∧
    w.equal v = true ∧ w.print = v.print

theorem Readable.readsBack (hv : v.Readable) (hle : v.nest ≤ maxNesting) : v.ReadsBack := by
  intro next
  obtain ⟨d, hd⟩ := hv.exists_datum
  have hread := Datum.read_eq_ok_iff.2 (hv.spells hd hle)
  have hload := datum?_load d next
  have hequal := (equal_iff_of_datum? hload).2 hd
  refine ⟨(d.load next).1, (d.load next).2, ?_, hequal, hequal.equal, ?_⟩
  · rw [print_eq_text, Alloc.read_eq, hread]
  · rw [print_eq_text, print_eq_text, (text_eq_of_datum? hload hd).1]

end Value

/-! ### Data that fit -/

namespace Datum

/-- The values of `d` can be written down, and fit within `depth` lists. -/
def Fits (depth : Nat) (d : Datum) : Prop :=
  ∀ v : Value, v.datum? = some d → v.Readable ∧ depth + v.nest ≤ maxNesting

/-- The values of `d` can be written down, and fit within `depth` lists as the rest of
    the innermost of these. -/
def FitsRest (depth : Nat) (d : Datum) : Prop :=
  ∀ v : Value, v.datum? = some d → v.Readable ∧ depth + v.innerNest ≤ maxNesting

variable {depth : Nat} {d : Datum}

/-- A list is one level, its items are below it. -/
theorem FitsRest.fits (h : d.FitsRest (depth + 1)) : d.Fits depth := by
  intro v hv
  obtain ⟨hreadable, hle⟩ := h v hv
  exact ⟨hreadable, by simp only [Value.nest]; omega⟩

/-- What fits as an item fits as a tail, in whose place it takes one level less. -/
theorem Fits.fitsRest (h : d.Fits depth) : d.FitsRest depth := by
  intro v hv
  obtain ⟨hreadable, hle⟩ := h v hv
  exact ⟨hreadable, by simp only [Value.nest] at hle; omega⟩

theorem FitsRest.pair {a b : Datum} (ha : a.Fits depth) (hb : b.FitsRest depth) :
    (pair a b).FitsRest depth := by
  intro v hv
  cases v with
  | pair id x y =>
    obtain ⟨_, _, hx, hy, ⟨⟩⟩ := Value.datum?_pair_eq_some_iff.1 hv
    obtain ⟨hrx, hlex⟩ := ha x hx
    obtain ⟨hry, hley⟩ := hb y hy
    refine ⟨⟨hrx, hry⟩, ?_⟩
    simp only [Value.nest, Value.innerNest] at hlex ⊢
    omega
  | _ => cases hv

theorem FitsRest.nil (hle : depth ≤ maxNesting) : nil.FitsRest depth := by
  intro v hv
  rw [Value.eq_of_datum?_of_isAtom (v := .nil) rfl hv rfl]
  exact ⟨trivial, hle⟩

theorem FitsRest.ofList {ds : List Datum} {tail : Datum} (hds : ∀ d ∈ ds, d.Fits depth)
    (htail : tail.FitsRest depth) : (ofList ds tail).FitsRest depth := by
  induction ds with
  | nil => exact htail
  | cons d ds ih =>
    rw [List.forall_mem_cons] at hds
    exact .pair hds.1 (ih hds.2)

end Datum

open Datum

variable {s rest : List Char} {d : Datum}

theorem Atom.fits (h : Atom s d rest) {depth : Nat} (hlt : depth < maxNesting) :
    d.Fits depth := by
  intro v hv
  cases v with
  | pair =>
    obtain ⟨_, _, _, _, rfl⟩ := Value.datum?_pair_eq_some_iff.1 hv
    cases h
  | symbol name =>
    cases hv
    generalize hd : Datum.symbol name = d at h
    cases h with
    | symbol hrun _ hname =>
      cases hd
      exact ⟨⟨by simpa using hrun.chars, by simpa using hname⟩, hlt⟩
    | _ => cases hd
  | native | closure | continuation | apply => cases hv
  | _ => exact ⟨trivial, hlt⟩

theorem Denotes.depth_lt {depth : Nat} (h : Denotes depth s d rest) : depth < maxNesting := by
  cases h <;> assumption

theorem fits_quote_symbol {depth : Nat} (hlt : depth < maxNesting) :
    (symbol "quote").Fits depth := by
  intro v hv
  rw [Value.eq_of_datum?_of_isAtom (v := .symbol "quote") rfl hv rfl]
  have hchars : "quote".toList.all isWordChar = true := by decide +kernel
  exact ⟨⟨List.all_eq_true.1 hchars, rfl⟩, hlt⟩

mutual

/-- What the grammar has somewhere fits there. -/
theorem Denotes.fits {depth : Nat} {s rest : List Char} {d : Datum}
    (h : Denotes depth s d rest) : d.Fits depth :=
  match h with
  | .atom hlt ha => ha.fits hlt
  | .quote _ _ hd =>
    FitsRest.fits (.pair (fits_quote_symbol hd.depth_lt) (.pair hd.fits (.nil (Nat.le_of_lt hd.depth_lt))))
  | .list hlt hds => FitsRest.fits (.ofList hds.fits (.nil hlt))
  | .dotted _ hds _ _ _ htail _ => FitsRest.fits (.ofList hds.fits htail.fits.fitsRest)

theorem Items.fits {depth : Nat} {s rest : List Char} {ds : List Datum}
    (h : Items depth s ds rest) : ∀ d ∈ ds, d.Fits depth :=
  match h with
  | .nil _ => by simp
  | .cons _ hd hds => List.forall_mem_cons.2 ⟨hd.fits, hds.fits⟩

end

/-! ### What was read -/

/-- A datum that fits has values that survive printing. -/
theorem Datum.Fits.survives {v : Value} (h : d.Fits 0) (hv : v.datum? = some d) :
    v.Readable ∧ v.nest ≤ maxNesting ∧ v.ReadsBack := by
  obtain ⟨hreadable, hle⟩ := h v hv
  rw [Nat.zero_add] at hle
  exact ⟨hreadable, hle, hreadable.readsBack hle⟩

/-- The list of all forms has a value of each form. -/
theorem Alloc.exists_forms_of_readAll {text : String} {l : Value} {next next' : Nat}
    (h : Alloc.readAll text next = .ok (l, next')) :
    ∃ ds vs, Datum.readAll text = .ok ds ∧ l.list? = some vs ∧
      vs.map Value.datum? = ds.map some := by
  obtain ⟨ds, hds, hload⟩ := readAll_eq_ok_iff.1 h
  have hl : l.datum? = some (.ofList ds .nil) := by
    rw [← Value.datum?_load _ next, hload]
  obtain ⟨vs, hvs, hmap⟩ := Value.exists_list_of_datum? hl
  exact ⟨ds, vs, hds, hvs, hmap⟩

/-- Whatever the reader accepts survives printing: a value that is read from a text can
    be written down, nests no deeper than the reader goes, and its own text is read back
    as an equal value that has the same text. The same holds for each of the forms of a
    text. -/
theorem Alloc.read_survives (text : String) (next : Nat) :
    (∀ v next', Alloc.read text next = .ok (v, next') →
      v.Readable ∧ v.nest ≤ maxNesting ∧ v.ReadsBack) ∧
    ∀ l next', Alloc.readAll text next = .ok (l, next') →
      ∃ vs, l.list? = some vs ∧
        ∀ v ∈ vs, v.Readable ∧ v.nest ≤ maxNesting ∧ v.ReadsBack := by
  constructor
  · intro v next' h
    obtain ⟨d, hd, hv⟩ := exists_datum_of_read h
    obtain ⟨_, _, _, hdenotes, _⟩ := Datum.read_eq_ok_iff.1 hd
    exact hdenotes.fits.survives hv
  · intro l next' h
    obtain ⟨ds, vs, hds, hvs, hmap⟩ := exists_forms_of_readAll h
    refine ⟨vs, hvs, fun v hv => ?_⟩
    -- Each form is a value of one of the data.
    have hmem : v.datum? ∈ ds.map some := hmap ▸ List.mem_map_of_mem hv
    obtain ⟨d, hd, hvd⟩ := List.mem_map.1 hmem
    exact ((Datum.items_of_readAll hds).fits d hd).survives hvd.symm

/-- A quote mark, a list for a tail, a sign and a comment are not printed as they were
    written. -/
theorem read_survives_quoted :
    let text := "'(a . (+1 b)) ; x"
    ∃ v l, Alloc.read text 0 = .ok (v, 5) ∧ Alloc.readAll text 0 = .ok (l, 6) ∧
      v.print = "(quote (a 1 b))" ∧ v.ReadsBack ∧
      ∃ vs, l.list? = some vs ∧ ∀ w ∈ vs, w.ReadsBack := by
  intro text
  let d : Datum := .quote (.ofList [.symbol "a", .number 1, .symbol "b"] .nil)
  have hone : Datum.read text = .ok d := eq_ok_of_toOption (by decide +kernel)
  have hall : Datum.readAll text = .ok [d] := eq_ok_of_toOption (by decide +kernel)
  have hv : Alloc.read text 0 = .ok ((d.load 0).1, 5) := by rw [Alloc.read_eq, hone]; rfl
  have hl : Alloc.readAll text 0 = .ok (((Datum.ofList [d] .nil).load 0).1, 6) := by
    rw [Alloc.readAll_eq, hall]; rfl
  obtain ⟨hread, hreadAll⟩ := Alloc.read_survives text 0
  obtain ⟨vs, hvs, hsurvive⟩ := hreadAll _ _ hl
  refine ⟨_, _, hv, hl, ?_, (hread _ _ hv).2.2, vs, hvs, fun w hw => (hsurvive w hw).2.2⟩
  rw [Value.print_eq_text]
  rfl

end ConsMachine
