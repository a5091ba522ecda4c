import ConsMachine.Proofs.RoundTrip

/-!
# Whole texts

A text is read as its forms, one behind the other, exactly if they stand in it
(`Datum.readAll_eq_ok_iff`). Where the grammar has a datum, the reader takes the tokens of it
and places it, with all forms that came before (`Denotes.readFrom_eq`), so it goes from one
form of the text to the next.

In particular, the texts of values are read one behind the other, with blanks between them
(`Items.text_cons`).
-/

namespace ConsMachine

open Reader

variable {frames : List Frame} {forms ds : List Datum} {s t rest : List Char} {c : Char} {d : Datum}
  {l : Lexeme} {r q : Reader}

namespace Reader

/-- Read a text to its end. -/
def readFrom (r : Reader) (s : List Char) : Except Fault Reader :=
  r.feedAll (tokens s)

theorem readFrom_skips (h : Skips s t) (r : Reader) : r.readFrom s = r.readFrom t := by
  rw [readFrom, readFrom, h.tokens_eq]

/-- A token that is taken leaves the text behind it. -/
theorem Takes.readFrom_eq (h : Takes r l q) (hscan : Lexeme.scan c s = (l, rest))
    (hblank : isBlank c = false) (hsemicolon : c ≠ ';') :
    r.readFrom (c :: s) = q.readFrom rest := by
  rw [readFrom, tokens_of_cons (skipBlanks_cons hblank hsemicolon s), hscan, h.feedAll_cons]
  rfl

theorem Takes.readFrom_mark (h : Takes r l q) (hmark : l.mark? = some c)
    (hblank : isBlank c = false) (hsemicolon : c ≠ ';') : r.readFrom (c :: s) = q.readFrom s :=
  h.readFrom_eq ((Lexeme.scan_mark_iff hmark).2 ⟨rfl, rfl⟩) hblank hsemicolon

end Reader

mutual

/-- Where the grammar has a datum, the reader takes it, and goes on behind it. -/
theorem Denotes.readFrom_eq {depth : Nat} {s rest : List Char} {d : Datum}
    (h : Denotes depth s d rest) (frames : List Frame) (forms : List Datum)
    (hdepth : frames.length = depth) (ho : Open frames) :
    readFrom ⟨frames, forms⟩ s = (place d forms frames).readFrom rest := by
  match h with
  | .atom hlt ha =>
    obtain ⟨c, s, rfl⟩ := ha.exists_cons
    have hc := BeginsDatum.of_atom ha
    exact (Takes.atom ho (hdepth ▸ hlt)).readFrom_eq (Lexeme.scan_atom_iff.2 ha) hc.not_blank
      hc.ne_semicolon
  | .quote hlt hs hd =>
    rw [(Takes.quote ho (hdepth ▸ hlt)).readFrom_mark rfl (by decide) (by decide),
      readFrom_skips hs, hd.readFrom_eq (.quoted :: frames) forms (by simp [hdepth])
        (by rintro _ _ _ ⟨⟩)]
    rfl
  | .list hlt hds =>
    rw [(Takes.opening ho (hdepth ▸ hlt)).readFrom_mark rfl (by decide) (by decide),
      hds.readFrom_eq [] frames forms (by simp [hdepth]),
      Takes.closing.readFrom_mark rfl (by decide) (by decide)]
    simp
  | @Denotes.dotted _ _ _ _ _ _ ds _ hlt hds hne hdot hs hd hclose =>
    have hitems : ds.reverse ++ [] ≠ [] := by simpa using hne
    rw [(Takes.opening ho (hdepth ▸ hlt)).readFrom_mark rfl (by decide) (by decide),
      hds.readFrom_eq [] frames forms (by simp [hdepth]),
      (Takes.dot hitems).readFrom_eq (Lexeme.scan_dot_iff.2 ⟨rfl, rfl, hdot⟩) (by decide)
        (by decide),
      readFrom_skips hs, hd.readFrom_eq (.dotted _ :: frames) forms (by simp [hdepth])
        (by rintro _ _ _ ⟨⟩),
      readFrom_skips hclose]
    change readFrom ⟨.ended _ _ :: frames, forms⟩ _ = _
    rw [Takes.ended.readFrom_mark rfl (by decide) (by decide)]
    simp

/-- Where the grammar has items of a list, the reader adds them to the list. -/
theorem Items.readFrom_eq {depth : Nat} {s rest : List Char} {ds : List Datum}
    (h : Items depth s ds rest) (items : List Datum) (frames : List Frame) (forms : List Datum)
    (hdepth : frames.length + 1 = depth) :
    readFrom ⟨.list items :: frames, forms⟩ s =
      readFrom ⟨.list (ds.reverse ++ items) :: frames, forms⟩ rest := by
  match h with
  | .nil hs => exact readFrom_skips hs _
  | .cons (d := d) hs hd hds =>
    rw [readFrom_skips hs, hd.readFrom_eq (.list items :: frames) forms hdepth
      (by rintro _ _ _ ⟨⟩)]
    change readFrom ⟨.list (d :: items) :: frames, forms⟩ _ = _
    rw [hds.readFrom_eq (d :: items) frames forms hdepth]
    simp

end

/-- Forms of a text are read one behind the other. -/
theorem Items.readFrom_forms (h : Items 0 s ds rest) (forms : List Datum) :
    readFrom ⟨[], forms⟩ s = readFrom ⟨[], ds.reverse ++ forms⟩ rest := by
  induction ds generalizing s forms with
  | nil =>
    cases h with
    | nil hs => exact readFrom_skips hs _
  | cons d ds ih =>
    cases h with
    | cons hs hd hds =>
      rw [readFrom_skips hs, hd.readFrom_eq [] forms rfl (by rintro _ _ _ ⟨⟩)]
      change readFrom ⟨[], d :: forms⟩ _ = _
      rw [ih hds]
      simp

/-- A text is read as its forms exactly if these stand in it one behind the other. -/
theorem Datum.readAll_eq_ok_iff {text : String} :
    Datum.readAll text = .ok ds ↔ Items 0 text.toList ds [] := by
  refine ⟨items_of_readAll, fun h => readAll_eq_ok_iff_feedAll.2 ?_⟩
  have hforms := h.readFrom_forms []
  have hend : tokens [] = [] := tokens_of_nil (Skips.nil_iff.1 (.refl []))
  rw [List.append_nil, readFrom, readFrom, hend] at hforms
  exact hforms

/-- The text of a value is a form of a text, if no word goes on behind it. -/
theorem Items.text_cons {v : Value} (hv : v.Readable) (hd : v.datum? = some d)
    (hnest : v.nest ≤ maxNesting) (hs : Skips s (v.text.toList ++ rest))
    (hrest : startsWord rest = false) (h : Items 0 rest ds []) : Items 0 s (d :: ds) [] :=
  .cons hs ((hv.writes hd).1 0 rest (by omega) hrest) h

/-- A symbol and an atom between parentheses are a form of a text. -/
theorem Items.list_cons {name : String} {v : Value} (hname : (Value.symbol name).Readable)
    (hv : v.Readable) (hatom : v.isAtom = true) (hd : v.datum? = some d)
    (hs : Skips s ('(' :: (name.toList ++ ' ' :: (v.atomText.toList ++ ')' :: rest))))
    (hrest : startsWord rest = false) (h : Items 0 rest ds []) :
    Items 0 s (.ofList [.symbol name, d] .nil :: ds) [] := by
  let form : Value := .pair 1 (.symbol name) (.pair 0 v .nil)
  have hform : form.datum? = some (.ofList [.symbol name, d] .nil) := by
    simp [form, Value.datum?, hd, Datum.ofList]
  have hinner : v.innerNest = 0 := by
    cases v with
    | pair => cases hatom
    | _ => rfl
  have hnest : form.nest ≤ maxNesting := by
    simp [form, Value.nest, Value.innerNest, hinner, maxNesting]
  have htext : form.text.toList ++ rest =
      '(' :: (name.toList ++ ' ' :: (v.atomText.toList ++ ')' :: rest)) := by
    simp [form, Value.text, Value.restText, Value.text_of_isAtom hatom, Value.atomText]
  have hreadable : form.Readable := ⟨hname, hv, trivial⟩
  exact .text_cons hreadable hform hnest (htext ▸ hs) hrest h

end ConsMachine
