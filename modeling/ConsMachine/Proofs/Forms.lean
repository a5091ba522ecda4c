import ConsMachine.Datum.Reader

/-!
# Tokens and forms

What a token does when the reader takes it is said once, in `Reader.Takes`: whether it
is taken, and what comes of it, does not depend on the text behind the token
(`feed_eq_ok_iff`). A token adds at most one form, and a form is added only when no
frame is left (`Takes.adds`).

So reading one form and reading all of them go together up to the end of the first
form, and there are three ways in which this can come out (`FirstForm`, `firstForm`).
-/

namespace ConsMachine

/-- The fault lies at the token `t`, which cannot stand where it stands. -/
structure Fault.Refuses (f : Fault) (t : Token) : Prop where
  rest : f.rest = t.text
  ne_unexpectedEnd : f.cause ≠ .unexpectedEnd
  ne_trailing : f.cause ≠ .trailing

namespace Reader

/-! ### Tokens taken -/

/-- A datum may begin here: no list waits for the parenthesis behind its tail. -/
def Open (frames : List Frame) : Prop :=
  ∀ items tail outer, frames ≠ .ended items tail :: outer

/-- What a token does that is taken: it ends a list, begins the tail of one, or begins
    a datum where one may stand. -/
inductive Takes : Reader → Lexeme → Reader → Prop
  | closing {items : List Datum} {frames : List Frame} {forms : List Datum} :
      Takes ⟨.list items :: frames, forms⟩ .closing (place (.ofList items.reverse .nil) forms frames)
  | dot {items : List Datum} {frames : List Frame} {forms : List Datum} : items ≠ [] →
      Takes ⟨.list items :: frames, forms⟩ .dot ⟨.dotted items :: frames, forms⟩
  | ended {items : List Datum} {tail : Datum} {frames : List Frame} {forms : List Datum} :
      Takes ⟨.ended items tail :: frames, forms⟩ .closing
        (place (.ofList items.reverse tail) forms frames)
  | opening {frames : List Frame} {forms : List Datum} : Open frames →
      frames.length < maxNesting → Takes ⟨frames, forms⟩ .opening ⟨.list [] :: frames, forms⟩
  | quote {frames : List Frame} {forms : List Datum} : Open frames →
      frames.length < maxNesting → Takes ⟨frames, forms⟩ .quote ⟨.quoted :: frames, forms⟩
  | atom {frames : List Frame} {forms : List Datum} {d : Datum} : Open frames →
      frames.length < maxNesting → Takes ⟨frames, forms⟩ (.atom d) (place d forms frames)

variable {frames : List Frame} {forms : List Datum} {r q : Reader} {t : Token}

/-- Where a datum may begin, a token other than a parenthesis or a dot begins one. -/
theorem feed_eq_begin (h : Open frames)
    (hclosing : t.lexeme ≠ .closing) (hdot : t.lexeme ≠ .dot) :
    feed ⟨frames, forms⟩ t = begin frames forms t := by
  obtain ⟨l, text⟩ := t
  obtain _ | ⟨_ | items | items | ⟨items, tail⟩, outer⟩ := frames
  · rfl
  · rfl
  · cases l with
    | closing => exact absurd rfl hclosing
    | dot => exact absurd rfl hdot
    | _ => rfl
  · rfl
  · exact absurd rfl (h items tail outer)

theorem Takes.of_begin (ho : Open frames) (h : begin frames forms t = .ok q) :
    Takes ⟨frames, forms⟩ t.lexeme q := by
  unfold begin at h
  split at h
  · cases h
  · rename_i hlt
    rw [Nat.not_le] at hlt
    split at h
    · rename_i hl; cases h; rw [hl]; exact .opening ho hlt
    · rename_i hl; cases h; rw [hl]; exact .quote ho hlt
    · rename_i hl; cases h; rw [hl]; exact .atom ho hlt
    all_goals cases h

theorem Takes.feed_eq (h : Takes r t.lexeme q) : r.feed t = .ok q := by
  obtain ⟨l, text⟩ := t
  generalize hl : (⟨l, text⟩ : Token).lexeme = l' at h
  cases hl
  cases h with
  | closing => rfl
  | @dot items _ _ hne =>
    obtain ⟨d, items, rfl⟩ := List.exists_cons_of_ne_nil hne
    rfl
  | ended => rfl
  | opening ho hlt | quote ho hlt | atom ho hlt =>
    rw [feed_eq_begin ho (by rintro ⟨⟩) (by rintro ⟨⟩), begin, if_neg (Nat.not_le.2 hlt)]

/-- A token is taken or not, whatever stands behind it. -/
theorem feed_eq_ok_iff : r.feed t = .ok q ↔ Takes r t.lexeme q := by
  refine ⟨fun h => ?_, Takes.feed_eq⟩
  obtain ⟨frames, forms⟩ := r
  obtain ⟨l, text⟩ := t
  obtain _ | ⟨_ | items | items | ⟨items, tail⟩, outer⟩ := frames
  · exact .of_begin (by rintro _ _ _ ⟨⟩) h
  · exact .of_begin (by rintro _ _ _ ⟨⟩) h
  · cases l with
    | closing => cases h; exact .closing
    | dot =>
      cases items with
      | nil => cases h
      | cons d items => cases h; exact .dot (List.cons_ne_nil d items)
    | _ => exact .of_begin (by rintro _ _ _ ⟨⟩) h
  · exact .of_begin (by rintro _ _ _ ⟨⟩) h
  · cases l with
    | closing => cases h; exact .ended
    | _ => cases h

theorem begin_eq_error {f : Fault} (h : begin frames forms t = .error f) : f.Refuses t := by
  unfold begin at h
  split at h
  · cases h
    exact ⟨rfl, by rintro ⟨⟩, by rintro ⟨⟩⟩
  · split at h
    all_goals cases h
    all_goals exact ⟨rfl, by rintro ⟨⟩, by rintro ⟨⟩⟩

/-- A token that is not taken is the place of the fault. -/
theorem feed_eq_error {f : Fault} (h : r.feed t = .error f) : f.Refuses t := by
  unfold feed at h
  split at h
  case h_6 => exact begin_eq_error h
  all_goals cases h
  all_goals exact ⟨rfl, by rintro ⟨⟩, by rintro ⟨⟩⟩

/-- A text that ends too early is at fault where it ends. -/
theorem endFault_eq (r : Reader) :
    r.endFault = ⟨.tooDeep, []⟩ ∨ r.endFault = ⟨.unexpectedEnd, []⟩ := by
  unfold endFault
  split
  · split
    · exact .inl rfl
    · exact .inr rfl
  · split
    · exact .inl rfl
    · exact .inr rfl
  · exact .inr rfl

/-! ### The first form -/

variable {l : Lexeme} {ts : List Token} {d : Datum}

/-- A datum that is placed completes a form, or a frame is left. -/
theorem place_forms (d : Datum) (forms : List Datum) (frames : List Frame) :
    (place d forms frames).frames ≠ [] ∧ (place d forms frames).forms = forms ∨
      ∃ x, place d forms frames = ⟨[], x :: forms⟩ := by
  induction frames generalizing d with
  | nil => exact .inr ⟨d, rfl⟩
  | cons frame frames ih =>
    cases frame with
    | quoted => exact ih d.quote
    | list | dotted | ended => exact .inl ⟨List.cons_ne_nil _ _, rfl⟩

theorem Takes.adds (h : Takes r l q) :
    q.frames ≠ [] ∧ q.forms = r.forms ∨ ∃ d, q = ⟨[], d :: r.forms⟩ := by
  cases h with
  | closing | ended | atom => exact place_forms _ _ _
  | dot | opening | quote => exact .inl ⟨List.cons_ne_nil _ _, rfl⟩

theorem feedAll_cons (r : Reader) (t : Token) (ts : List Token) :
    r.feedAll (t :: ts) = (r.feed t >>= fun q => q.feedAll ts) := rfl

theorem Takes.feedAll_cons (h : Takes r l q) (text : List Char) (ts : List Token) :
    r.feedAll (⟨l, text⟩ :: ts) = q.feedAll ts := by
  rw [Reader.feedAll_cons, Takes.feed_eq h]
  rfl

/-- Tokens are taken one after another. -/
theorem feedAll_cons_eq_ok_iff :
    r.feedAll (t :: ts) = .ok q ↔ ∃ r', Takes r t.lexeme r' ∧ r'.feedAll ts = .ok q := by
  constructor
  · intro h
    rw [feedAll_cons] at h
    cases hfeed : r.feed t with
    | error f => rw [hfeed] at h; cases h
    | ok r' =>
      rw [hfeed] at h
      exact ⟨r', feed_eq_ok_iff.1 hfeed, h⟩
  · rintro ⟨r', htakes, h⟩
    exact (htakes.feedAll_cons t.text ts).trans h

/-- Forms are only added; and where tokens leave no frame, they have added one. -/
theorem exists_forms_feedAll (h : r.feedAll ts = .ok q) :
    ∃ new, q.forms = new ++ r.forms ∧ (q.frames = [] → ts ≠ [] → new ≠ []) := by
  induction ts generalizing r with
  | nil =>
    cases h
    exact ⟨[], rfl, fun _ hts => absurd rfl hts⟩
  | cons t ts ih =>
    obtain ⟨r', htakes, h⟩ := feedAll_cons_eq_ok_iff.1 h
    obtain ⟨new, hnew, hne⟩ := ih h
    obtain ⟨hframes, hforms⟩ | ⟨d, rfl⟩ := htakes.adds
    · refine ⟨new, hforms ▸ hnew, fun hq _ => hne hq ?_⟩
      rintro rfl
      cases h
      exact hframes hq
    · exact ⟨new ++ [d], by simp [hnew], fun _ _ => by simp⟩

/-- Tokens are taken up to the one that is refused. -/
theorem exists_of_feedAll_eq_error {f : Fault} (h : r.feedAll ts = .error f) :
    ∃ us t vs q, ts = us ++ t :: vs ∧ r.feedAll us = .ok q ∧ q.feed t = .error f := by
  induction ts generalizing r with
  | nil => cases h
  | cons t ts ih =>
    rw [feedAll_cons] at h
    cases hfeed : r.feed t with
    | error g =>
      rw [hfeed] at h
      exact ⟨[], t, ts, r, rfl, rfl, hfeed.trans h⟩
    | ok r' =>
      rw [hfeed] at h
      obtain ⟨us, u, vs, q, rfl, hq, hf⟩ := ih h
      exact ⟨t :: us, u, vs, q, rfl, feedAll_cons_eq_ok_iff.2 ⟨r', feed_eq_ok_iff.1 hfeed, hq⟩, hf⟩

/-- Reading all forms fails at one of the tokens. -/
theorem feedAll_eq_error {f : Fault} (h : r.feedAll ts = .error f) :
    ∃ t ∈ ts, f.Refuses t := by
  obtain ⟨us, t, vs, q, rfl, _, hf⟩ := exists_of_feedAll_eq_error h
  exact ⟨t, List.mem_append_right us List.mem_cons_self, feed_eq_error hf⟩

theorem readForm_cons (hr : r.forms = []) (t : Token) (ts : List Token) :
    r.readForm (t :: ts) = (r.feed t >>= fun q => q.readForm ts) := by
  rw [readForm, hr]

/-- How reading one form comes out, next to reading all forms: both meet the same
    fault; or the text ends before the first form does; or the first form is complete
    behind some of the tokens, and reading one form looks no further than the next. -/
inductive FirstForm (r : Reader) (ts : List Token) : Prop
  | fault {f : Fault} : r.feedAll ts = .error f → r.readForm ts = .error f → FirstForm r ts
  | unfinished {q : Reader} : r.feedAll ts = .ok q → q.forms = [] →
      r.readForm ts = .error q.endFault → FirstForm r ts
  | complete {d : Datum} {us vs : List Token} : ts = us ++ vs → r.feedAll us = .ok ⟨[], [d]⟩ →
      r.readForm ts = readForm ⟨[], [d]⟩ vs → FirstForm r ts

theorem firstForm (hr : r.forms = []) (ts : List Token) : FirstForm r ts := by
  induction ts generalizing r with
  | nil => exact .unfinished rfl hr (by rw [readForm, hr])
  | cons t ts ih =>
    have hreadForm := readForm_cons hr t ts
    have hfeedAll := feedAll_cons r t
    cases hfeed : r.feed t with
    | error f =>
      rw [hfeed] at hreadForm
      exact .fault (by rw [hfeedAll, hfeed]; rfl) hreadForm
    | ok r' =>
      simp only [hfeed] at hreadForm hfeedAll
      obtain ⟨_, hforms⟩ | ⟨d, rfl⟩ := (feed_eq_ok_iff.1 hfeed).adds
      · cases ih (hforms.trans hr) with
        | fault hall hone => exact .fault ((hfeedAll ts).trans hall) (hreadForm.trans hone)
        | unfinished hall hq hone =>
          exact .unfinished ((hfeedAll ts).trans hall) hq (hreadForm.trans hone)
        | complete hts hus hone =>
          exact .complete (congrArg (t :: ·) hts) ((hfeedAll _).trans hus) (hreadForm.trans hone)
      · rw [hr] at hfeedAll hreadForm
        exact @FirstForm.complete _ _ d [t] ts rfl (hfeedAll []) hreadForm

/-- A text is read as one form if reading all its forms gives this one. -/
theorem readForm_eq_ok_iff (hr : r.forms = []) :
    r.readForm ts = .ok d ↔ r.feedAll ts = .ok ⟨[], [d]⟩ := by
  cases firstForm hr ts with
  | fault hall hone => rw [hall, hone]; exact iff_of_false (by rintro ⟨⟩) (by rintro ⟨⟩)
  | unfinished hall hq hone =>
    rw [hall, hone]
    refine iff_of_false (by rintro ⟨⟩) ?_
    rintro ⟨⟩
    cases hq
  | @complete x us vs hts hus hone =>
    rw [hone, hts, feedAll_append, hus]
    cases vs with
    | nil =>
      change Except.ok x = Except.ok d ↔ Except.ok _ = Except.ok _
      simp
    | cons t vs =>
      refine iff_of_false (by rintro ⟨⟩) fun hall => ?_
      -- The tokens left would have added one more form.
      obtain ⟨new, hnew, hne⟩ := exists_forms_feedAll (show feedAll ⟨[], [x]⟩ (t :: vs) = _ from hall)
      obtain ⟨y, new, rfl⟩ := List.exists_cons_of_ne_nil (hne rfl (List.cons_ne_nil t vs))
      simp at hnew

/-- Reading one form fails at one of the tokens, or where they end before a form does. -/
theorem readForm_eq_error {f : Fault} (hr : r.forms = []) (h : r.readForm ts = .error f) :
    (∃ t ∈ ts, f.rest = t.text ∧ f.cause ≠ .unexpectedEnd) ∨
      ∃ q, r.feedAll ts = .ok q ∧ q.forms = [] ∧ q.endFault = f := by
  cases firstForm hr ts with
  | fault hall hone =>
    rw [hone] at h
    cases h
    obtain ⟨t, ht, hrefuses⟩ := feedAll_eq_error hall
    exact .inl ⟨t, ht, hrefuses.rest, hrefuses.ne_unexpectedEnd⟩
  | @unfinished q hall hq hone =>
    rw [hone] at h
    cases h
    exact .inr ⟨q, hall, hq, rfl⟩
  | @complete d us vs hts _ hone =>
    rw [hone] at h
    cases vs with
    | nil => cases h
    | cons t vs =>
      cases h
      exact .inl ⟨t, hts ▸ List.mem_append_right us List.mem_cons_self, rfl, by rintro ⟨⟩⟩

end Reader

/-! ### Texts -/

theorem mapError_eq_ok_iff {α ε ε' : Type} {f : ε → ε'} {x : Except ε α} {a : α} :
    x.mapError f = .ok a ↔ x = .ok a := by
  cases x with
  | ok b =>
    change Except.ok b = Except.ok a ↔ _
    simp
  | error e => exact iff_of_false (by rintro ⟨⟩) (by rintro ⟨⟩)

theorem mapError_eq_error_iff {α ε ε' : Type} {f : ε → ε'} {x : Except ε α} {e : ε'} :
    x.mapError f = .error e ↔ ∃ e', x = .error e' ∧ f e' = e := by
  cases x with
  | ok a => exact iff_of_false (by rintro ⟨⟩) (by rintro ⟨_, ⟨⟩, _⟩)
  | error e' =>
    change Except.error (f e') = Except.error e ↔ _
    simp

theorem eq_ok_of_toOption {α ε : Type} {x : Except ε α} {a : α} (h : x.toOption = some a) :
    x = .ok a := by
  cases x with
  | ok b => exact congrArg Except.ok (Option.some.inj h)
  | error e => cases h

theorem exists_error_of_eq_some {α ε β : Type} {x : Except ε α} (f : ε → β) {b : β}
    (h : (match x with | .ok _ => none | .error e => some (f e)) = some b) :
    ∃ e, x = .error e ∧ f e = b := by
  cases x with
  | ok a => cases h
  | error e => exact ⟨e, rfl, Option.some.inj h⟩

namespace Datum

variable {text : String} {d : Datum} {ds : List Datum} {e : ReadError}

/-- Reading one form of a text leaves the one form. -/
theorem read_eq_ok_iff_feedAll :
    read text = .ok d ↔ Reader.start.feedAll (tokens text.toList) = .ok ⟨[], [d]⟩ := by
  rw [read, mapError_eq_ok_iff, Reader.readForm_eq_ok_iff rfl]

/-- Reading the forms of a text leaves these forms and no frame. -/
theorem readAll_eq_ok_iff_feedAll :
    readAll text = .ok ds ↔
      Reader.start.feedAll (tokens text.toList) = .ok ⟨[], ds.reverse⟩ := by
  rw [readAll, mapError_eq_ok_iff]
  cases Reader.start.feedAll (tokens text.toList) with
  | error f => exact iff_of_false (by rintro ⟨⟩) (by rintro ⟨⟩)
  | ok q =>
    obtain ⟨_ | ⟨frame, frames⟩, forms⟩ := q
    · change Except.ok forms.reverse = Except.ok ds ↔ _
      simp [List.reverse_eq_iff]
    · exact iff_of_false (by rintro ⟨⟩) (by rintro ⟨⟩)

theorem read_eq_error_iff :
    read text = .error e ↔
      ∃ f, Reader.start.readForm (tokens text.toList) = .error f ∧ f.report text.toList = e :=
  mapError_eq_error_iff

/-- Reading the forms of a text fails at a token, or at the end within a frame. -/
theorem readAll_eq_error_iff :
    readAll text = .error e ↔
      ∃ f, (Reader.start.feedAll (tokens text.toList) = .error f ∨
        ∃ q, Reader.start.feedAll (tokens text.toList) = .ok q ∧ q.frames ≠ [] ∧
          q.endFault = f) ∧ f.report text.toList = e := by
  rw [readAll, mapError_eq_error_iff]
  refine exists_congr fun f => and_congr_left' ?_
  cases Reader.start.feedAll (tokens text.toList) with
  | error g =>
    change Except.error g = Except.error f ↔ _
    simp
  | ok q =>
    change q.finish = .error f ↔ _
    obtain ⟨_ | ⟨frame, frames⟩, forms⟩ := q
    · simp [Reader.finish]
    · simp [Reader.finish]

end Datum

end ConsMachine
