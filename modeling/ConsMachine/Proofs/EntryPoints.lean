import ConsMachine.Proofs.Reprinting

/-!
# One form and all forms

A text can be read as one form, or as any number of forms one behind the other, and
the two agree (`Alloc.read_agrees_readAll`): a text is one form exactly if its forms
are this one, and what makes the first form unreadable is reported in the same words
either way. They part only where a text has no form at all, which is one too few, and
behind the first form, where there is one too many.
-/

namespace ConsMachine

open Reader

variable {text : String} {d x : Datum} {ds : List Datum} {e : ReadError}

namespace Datum

/-- A text is one form if its forms are this one. -/
theorem read_eq_ok_iff_readAll : read text = .ok d ↔ readAll text = .ok [d] := by
  rw [read_eq_ok_iff_feedAll, readAll_eq_ok_iff_feedAll]
  rfl

/-- A text without forms is an incomplete one. -/
theorem read_of_readAll_nil (h : readAll text = .ok []) :
    ∃ e, read text = .error e ∧ e.kind = .incomplete := by
  have hblank : tokens text.toList = [] := by
    cases items_of_readAll h with
    | nil hs => exact tokens_eq_nil_iff.2 hs
  refine ⟨_, read_eq_error_iff.2 ⟨⟨.unexpectedEnd, []⟩, ?_, rfl⟩, rfl⟩
  rw [hblank]
  rfl

/-- Where a second form begins, the text is too long for one form. -/
theorem read_of_items (h : Items 0 text.toList (d :: x :: ds) []) :
    ∃ c s rest, Items 0 text.toList [d] (c :: s) ∧ Denotes 0 (c :: s) x rest ∧
      read text = .error (Fault.report text.toList ⟨.trailing, c :: s⟩) := by
  cases h with
  | cons hs hd hds =>
    cases hds with
    | @cons _ t _ _ _ _ _ ht hx _ =>
      obtain ⟨c, s, rfl, hc, _⟩ := hx.begin_eq [] rfl
      obtain ⟨c', s', rfl, hc', heq⟩ := hd.begin_eq [] rfl
      refine ⟨c, s, _, Items.single_iff.2 ⟨_, _, hs, hd, ht⟩, hx, read_eq_error_iff.2 ⟨_, ?_, rfl⟩⟩
      change readWithin [] text.toList = _
      rw [readWithin_skips hs, hc'.readWithin_eq (by rintro _ _ _ ⟨⟩), heq, placeWithin,
        ht.tokens_eq, tokens_of_cons (skipBlanks_cons hc.not_blank hc.ne_semicolon s)]
      rfl

/-- What is wrong with the first form is the same for both. -/
theorem readAll_eq_error_of_read (h : read text = .error e) (hkind : e.kind ≠ .trailingContent)
    (hblank : ¬ Skips text.toList []) : readAll text = .error e := by
  obtain ⟨f, hf, rfl⟩ := read_eq_error_iff.1 h
  refine readAll_eq_error_iff.2 ⟨f, ?_, rfl⟩
  cases firstForm (r := start) rfl (tokens text.toList) with
  | fault hall hone =>
    rw [hone] at hf
    cases hf
    exact .inl hall
  | @unfinished q hall hq hone =>
    rw [hone] at hf
    cases hf
    refine .inr ⟨q, hall, fun hframes => hblank (tokens_eq_nil_iff.1 ?_), rfl⟩
    -- Tokens leave a form or a frame.
    obtain ⟨new, hnew, hne⟩ := exists_forms_feedAll hall
    refine Classical.byContradiction fun hts => hne hframes hts ?_
    rw [hq] at hnew
    exact (List.append_eq_nil_iff.1 hnew.symm).1
  | @complete d us vs _ _ hone =>
    rw [hone] at hf
    cases vs with
    | nil => cases hf
    | cons t vs =>
      cases hf
      exact absurd rfl hkind

theorem kind_ne_trailing_of_readAll (h : readAll text = .error e) : e.kind ≠ .trailingContent := by
  have hkind {f : Fault} (hf : f.cause ≠ .trailing) : f.cause.kind ≠ .trailingContent := by
    cases hc : f.cause with
    | trailing => exact absurd hc hf
    | _ => rintro ⟨⟩
  obtain ⟨f, hf | ⟨q, _, _, hf⟩, rfl⟩ := readAll_eq_error_iff.1 h
  · obtain ⟨t, _, hrefuses⟩ := feedAll_eq_error hf
    exact hkind hrefuses.ne_trailing
  · obtain heq | heq := q.endFault_eq
    all_goals
      rw [← hf, heq]
      rintro ⟨⟩

end Datum

/-! ### Values -/

theorem Alloc.exists_data_of_readAll {l : Value} {vs : List Value} {next next' : Nat}
    (h : Alloc.readAll text next = .ok (l, next')) (hl : l.list? = some vs) :
    ∃ ds, Datum.readAll text = .ok ds ∧ vs.map Value.datum? = ds.map some := by
  obtain ⟨ds, ws, hds, hws, hmap⟩ := exists_forms_of_readAll h
  obtain rfl : ws = vs := Option.some.inj (hws.symm.trans hl)
  exact ⟨ds, hds, hmap⟩

/-- Reading a text as one form and as all its forms agree. It is read as a value
    exactly if it has a single form, which has an equal value. Without a form it is an
    incomplete one; with two or more it has trailing content, which is found at the first
    character of the second form. Any other error in a text that is not blank is the same
    for both, and trailing content is no error of reading all forms. -/
theorem Alloc.read_agrees_readAll (text : String) (m n : Nat) :
    (∀ v n', Alloc.read text n = .ok (v, n') →
      ∃ l m' w, Alloc.readAll text m = .ok (l, m') ∧ l.list? = some [w] ∧
        w.Equal v ∧ w.equal v = true) ∧
    (∀ l m' w, Alloc.readAll text m = .ok (l, m') → l.list? = some [w] →
      ∃ v n', Alloc.read text n = .ok (v, n') ∧ w.Equal v ∧ w.equal v = true) ∧
    (∀ l m', Alloc.readAll text m = .ok (l, m') → l.list? = some [] →
      ∃ e, Alloc.read text n = .error (.read e) ∧ e.kind = .incomplete) ∧
    (∀ l m' v w vs, Alloc.readAll text m = .ok (l, m') → l.list? = some (v :: w :: vs) →
      ∃ e d x c s rest, Alloc.read text n = .error (.read e) ∧ e.kind = .trailingContent ∧
        e.found = some c ∧ v.datum? = some d ∧ w.datum? = some x ∧
        Items 0 text.toList [d] (c :: s) ∧ Denotes 0 (c :: s) x rest) ∧
    (∀ e, Alloc.read text n = .error (.read e) → e.kind ≠ .trailingContent →
      ¬ Skips text.toList [] → Alloc.readAll text m = .error (.read e)) ∧
    ∀ e, Alloc.readAll text m = .error (.read e) → e.kind ≠ .trailingContent := by
  refine ⟨fun v n' h => ?_, fun l m' w h hl => ?_, fun l m' h hl => ?_,
    fun l m' v w vs h hl => ?_, fun e h hkind hblank => ?_, fun e h => ?_⟩
  · obtain ⟨d, hd, hv⟩ := exists_datum_of_read h
    cases hload : (Datum.ofList [d] .nil).load m with | mk l m'
    have hall := readAll_eq_ok_iff.2 ⟨[d], Datum.read_eq_ok_iff_readAll.1 hd, hload⟩
    obtain ⟨ds, ws, hds, hl, hmap⟩ := exists_forms_of_readAll hall
    obtain rfl : [d] = ds := Except.ok.inj ((Datum.read_eq_ok_iff_readAll.1 hd).symm.trans hds)
    obtain ⟨w, rfl, hw⟩ := List.map_eq_singleton_iff.1 hmap
    have hequal := (Value.equal_iff_of_datum? hw).2 hv
    exact ⟨l, m', w, hall, hl, hequal, hequal.equal⟩
  · obtain ⟨ds, hds, hmap⟩ := exists_data_of_readAll h hl
    obtain ⟨d, rfl, hw⟩ := List.map_eq_singleton_iff.1 hmap.symm
    have hequal := (Value.equal_iff_of_datum? hw.symm).2 (Value.datum?_load d n)
    exact ⟨_, _, read_eq_ok_iff.2 ⟨d, Datum.read_eq_ok_iff_readAll.2 hds, rfl⟩, hequal, hequal.equal⟩
  · obtain ⟨ds, hds, hmap⟩ := exists_data_of_readAll h hl
    obtain rfl := List.map_eq_nil_iff.1 hmap.symm
    obtain ⟨e, he, hkind⟩ := Datum.read_of_readAll_nil hds
    exact ⟨e, read_eq_error_iff.2 he, hkind⟩
  · obtain ⟨ds, hds, hmap⟩ := exists_data_of_readAll h hl
    obtain ⟨d, _, rfl, hv, htail⟩ := List.map_eq_cons_iff.1 hmap.symm
    obtain ⟨x, ds, rfl, hw, _⟩ := List.map_eq_cons_iff.1 htail
    obtain ⟨c, s, rest, hfirst, hsecond, hread⟩ := Datum.read_of_items (Datum.items_of_readAll hds)
    exact ⟨_, d, x, c, s, rest, read_eq_error_iff.2 hread, rfl, rfl, hv.symm, hw.symm,
      hfirst, hsecond⟩
  · exact readAll_eq_error_iff.2
      (Datum.readAll_eq_error_of_read (read_eq_error_iff.1 h) hkind hblank)
  · exact Datum.kind_ne_trailing_of_readAll (readAll_eq_error_iff.1 h)

/-- Two forms with a comment between them, and a form with too long a tail before
    another form. -/
theorem read_agrees_readAll_applied :
    (let text := "a ; c\n 'b"
      ∃ l m v w, Alloc.readAll text 0 = .ok (l, m) ∧ l.list? = some [v, w] ∧
        ∃ e, Alloc.read text 0 = .error (.read e) ∧ e.kind = .trailingContent ∧
          e.found = some '\'') ∧
    let text := "(a . b c) d"
    ∃ e, Alloc.read text 0 = .error (.read e) ∧ e.kind = .invalidSyntax ∧
      Alloc.readAll text 0 = .error (.read e) := by
  constructor
  · intro text
    let ds : List Datum := [.symbol "a", .quote (.symbol "b")]
    have hall : Datum.readAll text = .ok ds := eq_ok_of_toOption (by decide +kernel)
    have hl : Alloc.readAll text 0 = .ok ((Datum.ofList ds .nil).load 0) :=
      Alloc.readAll_eq_ok_iff.2 ⟨ds, hall, rfl⟩
    obtain ⟨_, _, _, htrailing, _⟩ := Alloc.read_agrees_readAll text 0 0
    obtain ⟨e, _, _, _, _, _, hread, hkind, _⟩ := htrailing _ _ _ _ _ hl rfl
    obtain ⟨e', he', hfound⟩ : ∃ e, Datum.read text = .error e ∧ e.found = some '\'' :=
      exists_error_of_eq_some ReadError.found (by decide +kernel)
    obtain rfl : e = e' := Except.error.inj ((Alloc.read_eq_error_iff.1 hread).symm.trans he')
    exact ⟨_, _, _, _, hl, rfl, e, hread, hkind, hfound⟩
  · intro text
    obtain ⟨e, he, hkind⟩ : ∃ e, Datum.read text = .error e ∧ e.kind = .invalidSyntax :=
      exists_error_of_eq_some ReadError.kind (by decide +kernel)
    have hread : Alloc.read text 0 = _ := Alloc.read_eq_error_iff.2 he
    have hblank : ¬ Skips text.toList [] := by
      rw [Skips.nil_iff]
      decide +kernel
    obtain ⟨_, _, _, _, hsame, _⟩ := Alloc.read_agrees_readAll text 0 0
    exact ⟨e, hread, hkind, hsame e hread (by simp [hkind]) hblank⟩

end ConsMachine
