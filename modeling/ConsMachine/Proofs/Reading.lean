import ConsMachine.Proofs.Data
import ConsMachine.Proofs.Progress
import ConsMachine.Session

/-!
# Reading follows the grammar

The reader keeps its place in a list of frames, the grammar in a tree. That the
reader finds what the grammar has is followed from three kinds of places to the end
of the text: within some frames (`Reader.readWithin`), at the first character of a
datum (`Reader.beginWithin`), and behind a datum that is complete
(`Reader.placeWithin`).

* Where the grammar has a datum, reading it from its first character on is
  placing it and reading the rest (`Denotes.begin_eq`, `Items.read_eq`); this
  follows the tree of the grammar.
* Where the reader succeeds, the grammar has a datum: its progress follows the
  grammar at every token (`Items.of_feedAll`).

So a text is read as a datum exactly if the grammar says so
(`Datum.read_eq_ok_iff`), and where all forms of a text are read, they stand in it one
after another (`Datum.items_of_readAll`).
-/

namespace ConsMachine

namespace Reader

variable {frames : List Frame} {s t rest : List Char} {c : Char} {d : Datum}

/-- Read the form of a text within some frames. -/
def readWithin (frames : List Frame) (s : List Char) : Except Fault Datum :=
  (⟨frames, []⟩ : Reader).readForm (tokens s)

/-- Begin a datum with the token at `c`, and read on. -/
def beginWithin (frames : List Frame) (c : Char) (s : List Char) : Except Fault Datum :=
  begin frames [] ⟨(Lexeme.scan c s).1, c :: s⟩ >>=
    fun r => r.readForm (tokens (Lexeme.scan c s).2)

/-- Give a datum to the innermost frame, and read on. -/
def placeWithin (d : Datum) (frames : List Frame) (s : List Char) : Except Fault Datum :=
  (place d [] frames).readForm (tokens s)

theorem readWithin_skips (h : Skips s t) : readWithin frames s = readWithin frames t := by
  rw [readWithin, readWithin, h.tokens_eq]

theorem readWithin_cons (hc : isBlank c = false) (hs : c ≠ ';') :
    readWithin frames (c :: s) =
      feed ⟨frames, []⟩ ⟨(Lexeme.scan c s).1, c :: s⟩ >>=
        fun r => r.readForm (tokens (Lexeme.scan c s).2) := by
  rw [readWithin, tokens_of_cons (skipBlanks_cons hc hs s)]
  rfl

/-! ### One token -/

section

variable {items : List Datum} {tail : Datum}

theorem beginWithin_atom (hlt : frames.length < maxNesting)
    (h : Lexeme.scan c s = (.atom d, rest)) :
    beginWithin frames c s = placeWithin d frames rest := by
  rw [beginWithin, begin, if_neg (Nat.not_le.2 hlt), h]
  rfl

theorem beginWithin_quote (hlt : frames.length < maxNesting)
    (h : Lexeme.scan c s = (.quote, rest)) :
    beginWithin frames c s = readWithin (.quoted :: frames) rest := by
  rw [beginWithin, begin, if_neg (Nat.not_le.2 hlt), h]
  rfl

theorem beginWithin_opening (hlt : frames.length < maxNesting)
    (h : Lexeme.scan c s = (.opening, rest)) :
    beginWithin frames c s = readWithin (.list [] :: frames) rest := by
  rw [beginWithin, begin, if_neg (Nat.not_le.2 hlt), h]
  rfl

theorem readWithin_closing : readWithin (.list items :: frames) (')' :: rest) =
    placeWithin (.ofList items.reverse .nil) frames rest := by
  rw [readWithin_cons (by decide) (by decide)]
  rfl

theorem readWithin_dot (hitems : items ≠ []) (h : startsWord t = false) :
    readWithin (.list items :: frames) ('.' :: t) = readWithin (.dotted items :: frames) t := by
  obtain ⟨d, items, rfl⟩ := List.exists_cons_of_ne_nil hitems
  rw [readWithin_cons (by decide) (by decide), Lexeme.scan_dot_iff.2 ⟨rfl, rfl, h⟩]
  rfl

theorem readWithin_ended : readWithin (.ended items tail :: frames) (')' :: rest) =
    placeWithin (.ofList items.reverse tail) frames rest := by
  rw [readWithin_cons (by decide) (by decide)]
  rfl

theorem placeWithin_quoted : placeWithin d (.quoted :: frames) s = placeWithin d.quote frames s :=
  rfl

theorem placeWithin_list : placeWithin d (.list items :: frames) s =
    readWithin (.list (d :: items) :: frames) s :=
  rfl

theorem placeWithin_dotted : placeWithin d (.dotted items :: frames) s =
    readWithin (.ended items d :: frames) s :=
  rfl

end

end Reader

/-! ### Completeness -/

open Reader

/-- A text whose first character begins a datum. -/
structure BeginsDatum (c : Char) (s : List Char) : Prop where
  not_blank : isBlank c = false
  ne_semicolon : c ≠ ';'
  ne_closing : (Lexeme.scan c s).1 ≠ .closing
  ne_dot : (Lexeme.scan c s).1 ≠ .dot

theorem BeginsDatum.readWithin_eq {frames : List Frame} {c : Char} {s : List Char}
    (h : BeginsDatum c s) (hf : Open frames) : readWithin frames (c :: s) = beginWithin frames c s := by
  rw [readWithin_cons h.not_blank h.ne_semicolon, feed_eq_begin hf h.ne_closing h.ne_dot]
  rfl

theorem BeginsDatum.of_mark {c : Char} {s : List Char} {l : Lexeme} (hl : l = .opening ∨ l = .quote)
    (hc : l.mark? = some c) : BeginsDatum c s := by
  have hscan : Lexeme.scan c s = (l, s) := (Lexeme.scan_mark_iff hc).2 ⟨rfl, rfl⟩
  obtain rfl | rfl := hl
  all_goals
    cases hc
    exact ⟨by decide, by decide, by simp [hscan], by simp [hscan]⟩

theorem Atom.exists_cons {s rest : List Char} {d : Datum} (h : Atom s d rest) :
    ∃ c s', s = c :: s' := by
  cases h with
  | number hrun | symbol hrun =>
    obtain ⟨c, w, rfl⟩ := List.exists_cons_of_ne_nil hrun.ne_nil
    exact ⟨c, _, rfl⟩
  | _ => exact ⟨_, _, rfl⟩

theorem BeginsDatum.of_atom {c : Char} {s rest : List Char} {d : Datum}
    (h : Atom (c :: s) d rest) : BeginsDatum c s := by
  have hscan := Lexeme.scan_atom_iff.2 h
  have hc : c = '#' ∨ isWordChar c = true := by
    cases Lexeme.found_of_scan hscan with
    | mark hmark => cases hmark
    | word hrun => exact .inr (hrun.chars c List.mem_cons_self)
    | _ => exact .inl rfl
  have hblank : isBlank c = false ∧ c ≠ ';' := by
    obtain rfl | hc := hc
    · decide
    · exact not_blank_of_isWordChar hc
  exact ⟨hblank.1, hblank.2, by simp [hscan], by simp [hscan]⟩

mutual

/-- Where the grammar has a datum, reading it from its first character on is placing
    it and reading the rest. -/
theorem Denotes.begin_eq {depth : Nat} {s rest : List Char} {d : Datum} (h : Denotes depth s d rest)
    (frames : List Frame) (hdepth : frames.length = depth) :
    ∃ c s', s = c :: s' ∧ BeginsDatum c s' ∧ beginWithin frames c s' = placeWithin d frames rest := by
  match h with
  | .atom hlt ha =>
    obtain ⟨c, s', rfl⟩ := ha.exists_cons
    exact ⟨c, s', rfl, .of_atom ha, beginWithin_atom (hdepth ▸ hlt) (Lexeme.scan_atom_iff.2 ha)⟩
  | .quote hlt hs hd =>
    obtain ⟨c, s', rfl, hc, heq⟩ := hd.begin_eq (.quoted :: frames) (by simp [hdepth])
    refine ⟨_, _, rfl, .of_mark (.inr rfl) rfl, ?_⟩
    rw [beginWithin_quote (hdepth ▸ hlt) ((Lexeme.scan_mark_iff rfl).2 ⟨rfl, rfl⟩),
      readWithin_skips hs, hc.readWithin_eq (by rintro _ _ _ ⟨⟩), heq, placeWithin_quoted]
  | .list hlt hds =>
    refine ⟨_, _, rfl, .of_mark (.inl rfl) rfl, ?_⟩
    rw [beginWithin_opening (hdepth ▸ hlt) ((Lexeme.scan_mark_iff rfl).2 ⟨rfl, rfl⟩),
      hds.read_eq [] frames (by simp [hdepth]), readWithin_closing]
    simp
  | @Denotes.dotted _ _ _ _ _ _ ds _ hlt hds hne hdot hs hd hclose =>
    obtain ⟨c, s', rfl, hc, heq⟩ := hd.begin_eq (.dotted ds.reverse :: frames) (by simp [hdepth])
    refine ⟨_, _, rfl, .of_mark (.inl rfl) rfl, ?_⟩
    rw [beginWithin_opening (hdepth ▸ hlt) ((Lexeme.scan_mark_iff rfl).2 ⟨rfl, rfl⟩),
      hds.read_eq [] frames (by simp [hdepth]), List.append_nil,
      readWithin_dot (by simpa using hne) hdot, readWithin_skips hs,
      hc.readWithin_eq (by rintro _ _ _ ⟨⟩), heq, placeWithin_dotted, readWithin_skips hclose,
      readWithin_ended, List.reverse_reverse]

/-- Where the grammar has items of a list, reading them adds them to the list. -/
theorem Items.read_eq {depth : Nat} {s rest : List Char} {ds : List Datum}
    (h : Items depth s ds rest) (items : List Datum)
    (frames : List Frame) (hdepth : frames.length + 1 = depth) :
    readWithin (.list items :: frames) s = readWithin (.list (ds.reverse ++ items) :: frames) rest := by
  match h with
  | .nil hs => exact readWithin_skips hs
  | .cons (d := d) hs hd hds =>
    obtain ⟨c, s', rfl, hc, heq⟩ := hd.begin_eq (.list items :: frames) hdepth
    rw [readWithin_skips hs, hc.readWithin_eq (by rintro _ _ _ ⟨⟩), heq, placeWithin_list,
      hds.read_eq (d :: items) frames hdepth]
    simp

end

/-! ### Reading a text -/

theorem Reader.readForm_of_form {x : Datum} :
    placeWithin x [] s = .ok d ↔ x = d ∧ Skips s [] := by
  rw [Skips.nil_iff]
  cases hs : skipBlanks s with
  | nil =>
    rw [placeWithin, tokens_of_nil hs]
    simp [place, readForm]
  | cons c r =>
    rw [placeWithin, tokens_of_cons hs]
    simp [place, readForm]

/-- The reader accepts exactly the texts of the grammar, each as the datum that it
    denotes. -/
theorem Datum.read_eq_ok_iff {text : String} : Datum.read text = .ok d ↔ Spells text.toList d := by
  constructor
  · intro h
    exact Items.single_iff.1 (Items.of_feedAll (read_eq_ok_iff_feedAll.1 h))
  · rintro ⟨s, rest, hs, hd, hrest⟩
    obtain ⟨c, s, rfl, hc, heq⟩ := hd.begin_eq [] rfl
    rw [Datum.read, mapError_eq_ok_iff]
    change readWithin [] text.toList = .ok d
    rw [readWithin_skips hs, hc.readWithin_eq (by rintro _ _ _ ⟨⟩), heq]
    exact readForm_of_form.2 ⟨rfl, hrest⟩

/-- The forms that the reader finds in a text stand in it one after another. -/
theorem Datum.items_of_readAll {text : String} {ds : List Datum}
    (h : Datum.readAll text = .ok ds) : Items 0 text.toList ds [] := by
  have hds := Items.of_feedAll (readAll_eq_ok_iff_feedAll.1 h)
  rwa [List.reverse_reverse] at hds

/-- A text denotes at most one datum: the grammar is unambiguous. -/
theorem Spells.unique {text : String} {e : Datum} (hd : Spells text.toList d)
    (he : Spells text.toList e) : d = e :=
  Except.ok.inj ((Datum.read_eq_ok_iff.2 hd).symm.trans (Datum.read_eq_ok_iff.2 he))

/-- What a text is read as, with the datum in between. -/
theorem Alloc.read_eq (text : String) (next : Nat) : Alloc.read text next =
    match Datum.read text with
    | .ok d => .ok (d.load next)
    | .error e => .error (.read e) := by
  unfold Alloc.read
  cases Datum.read text <;> rfl

/-- What a text is read as, form by form, with the data in between. -/
theorem Alloc.readAll_eq (text : String) (next : Nat) : Alloc.readAll text next =
    match Datum.readAll text with
    | .ok ds => .ok ((Datum.ofList ds .nil).load next)
    | .error e => .error (.read e) := by
  unfold Alloc.readAll
  cases Datum.readAll text <;> rfl

namespace Alloc

variable {text : String} {v l : Value} {e : ReadError} {next next' : Nat}

theorem read_eq_ok_iff : Alloc.read text next = .ok (v, next') ↔
    ∃ d, Datum.read text = .ok d ∧ d.load next = (v, next') := by
  rw [Alloc.read_eq]
  cases Datum.read text <;> simp

theorem read_eq_error_iff : Alloc.read text next = .error (.read e) ↔ Datum.read text = .error e := by
  rw [Alloc.read_eq]
  cases Datum.read text <;> simp

theorem readAll_eq_ok_iff : Alloc.readAll text next = .ok (l, next') ↔
    ∃ ds, Datum.readAll text = .ok ds ∧ (Datum.ofList ds .nil).load next = (l, next') := by
  rw [Alloc.readAll_eq]
  cases Datum.readAll text <;> simp

theorem readAll_eq_error_iff :
    Alloc.readAll text next = .error (.read e) ↔ Datum.readAll text = .error e := by
  rw [Alloc.readAll_eq]
  cases Datum.readAll text <;> simp

/-- A text is read as a value of its datum. -/
theorem exists_datum_of_read (h : Alloc.read text next = .ok (v, next')) :
    ∃ d, Datum.read text = .ok d ∧ v.datum? = some d := by
  obtain ⟨d, hd, hload⟩ := read_eq_ok_iff.1 h
  refine ⟨d, hd, ?_⟩
  rw [← Value.datum?_load d next, hload]

end Alloc

/-- A text is read as a value exactly if it denotes a datum, and then the value is
    the one of this datum; every other text is an error of reading. The equality that
    programs see finds the same, for a value whose pairs are older than the reading. -/
theorem Alloc.read_iff_spells (text : String) (v : Value) (next : Nat) :
    ((∃ w next', Alloc.read text next = .ok (w, next') ∧ w.Equal v) ↔
      ∃ d, Spells text.toList d ∧ v.datum? = some d) ∧
    (∀ w next', Alloc.read text next = .ok (w, next') → v.MadeBefore next →
      (w.equal v = true ↔ w.Equal v)) ∧
    ((∃ e, Alloc.read text next = .error (.read e)) ↔ ∀ d, ¬ Spells text.toList d) := by
  rw [Alloc.read_eq]
  cases hread : Datum.read text with
  | ok d =>
    have hd := Datum.read_eq_ok_iff.1 hread
    have hequal := Value.equal_iff_of_datum? (v := v) (Value.datum?_load d next)
    have hmade := (Value.load_madeFrom d next).1
    dsimp only
    cases hload : d.load next with | mk w next'
    rw [hload] at hequal hmade
    refine ⟨⟨?_, ?_⟩, ?_, iff_of_false (by rintro ⟨e, ⟨⟩⟩) fun h => h d hd⟩
    · rintro ⟨_, _, ⟨⟩, hw⟩
      exact ⟨d, hd, hequal.1 hw⟩
    · rintro ⟨d', hd', hv⟩
      exact ⟨w, next', rfl, hequal.2 (hd.unique hd' ▸ hv)⟩
    · rintro _ _ ⟨⟩ hv
      exact Value.equal_iff_Equal hmade hv
  | error e =>
    have hnone (d : Datum) (hd : Spells text.toList d) : False := by
      rw [Datum.read_eq_ok_iff.2 hd] at hread
      cases hread
    refine ⟨iff_of_false ?_ ?_, ?_, iff_of_true ⟨e, rfl⟩ hnone⟩
    · rintro ⟨_, _, ⟨⟩, _⟩
    · rintro ⟨d, hd, _⟩
      exact hnone d hd
    · rintro _ _ ⟨⟩

theorem read_quoted_symbol :
    let v : Value := .pair 1 (.symbol "quote") (.pair 0 (.symbol "a") .nil)
    v.MadeBefore 2 ∧
      ∃ w next', Alloc.read "'a" 2 = .ok (w, next') ∧ w.equal v = true := by
  intro v
  have hv : v.MadeBefore 2 := ⟨by decide, trivial, by decide, trivial, trivial⟩
  have ha : Atom ['a'] (.symbol "a") [] := by
    have hrun : IsRun ['a'] [] := ⟨by simp, List.forall_mem_singleton.2 rfl, rfl⟩
    refine .symbol hrun (fun n hn => ?_) rfl
    cases integer?_eq_some_iff.2 hn
  have hspells : Spells "'a".toList (.quote (.symbol "a")) :=
    ⟨_, [], .refl _, .quote (by decide) (.refl _) (.atom (by decide) ha), .refl []⟩
  obtain ⟨hiff, hequal, _⟩ := Alloc.read_iff_spells "'a" v 2
  obtain ⟨w, next', hread, hw⟩ := hiff.2 ⟨_, hspells, rfl⟩
  exact ⟨hv, w, next', hread, (hequal w next' hread hv).2 hw⟩

end ConsMachine
