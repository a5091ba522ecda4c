import ConsMachine.Proofs.Reading

/-!
# Unfinished texts

A text is reported as incomplete exactly if more text can make it readable
(`Alloc.read_completes`).

A line feed ends whatever stands at the end of a text, be it a word, a dot or a
comment, and changes none of the tokens before it, so that the reader goes on behind
it with what it holds (`Reader.feedAll_lineFeed`). From there an empty list is the
datum that a quote mark or a dot waits for, and closing parentheses complete one frame
after another (`Reader.exists_closing`, `Reader.exists_completion`).
-/

namespace ConsMachine

variable {s t rest : List Char} {c : Char}

/-! ### A line feed behind a text -/

theorem EndsComment.lineFeed_append (h : EndsComment s) (t : List Char) :
    EndsComment (s ++ '\n' :: t) := by
  cases h with
  | text | lineFeed => exact .lineFeed
  | carriageReturn => exact .carriageReturn

theorem Skips.lineFeed (h : Skips s rest) (t : List Char) :
    Skips (s ++ '\n' :: t) (rest ++ '\n' :: t) := by
  induction h with
  | refl => exact .refl _
  | blank hc _ ih => exact .blank hc ih
  | comment hbody hend _ ih =>
    rw [List.cons_append, List.append_assoc]
    exact .comment hbody (hend.lineFeed_append t) ih

theorem startsWord_lineFeed (h : startsWord rest = false) (t : List Char) :
    startsWord (rest ++ '\n' :: t) = false := by
  cases rest with
  | nil => rfl
  | cons c rest => exact h

theorem IsRun.lineFeed {w : List Char} (h : IsRun w rest) (t : List Char) :
    IsRun w (rest ++ '\n' :: t) where
  ne_nil := h.ne_nil
  chars := h.chars
  maximal := startsWord_lineFeed h.maximal t

/-- Whatever is found in a text other than junk ends before a line feed behind it. -/
theorem Lexeme.scan_lineFeed (h : (Lexeme.scan c s).1 ≠ .junk) (t : List Char) :
    Lexeme.scan c (s ++ '\n' :: t) =
      ((Lexeme.scan c s).1, (Lexeme.scan c s).2 ++ '\n' :: t) := by
  cases hscan : Lexeme.scan c s with | mk l rest
  rw [hscan] at h
  cases found_of_scan hscan with
  | mark hc => exact (scan_mark_iff hc).2 ⟨rfl, rfl⟩
  | word hrun hword =>
    rw [List.append_assoc, ← hword]
    exact scan_word (hrun.lineFeed t)
  | true hrest | false hrest => simp [scan, startsWord_lineFeed hrest t]
  | junk => exact absurd rfl h

theorem isBlank_of_skipBlanks (h : skipBlanks s = c :: rest) : isBlank c = false := by
  fun_induction skipBlanks s with
  | case1 => cases h
  | case2 c s hc ih => exact ih h
  | case3 s t ht _ ih => exact ih h
  | case4 => cases h; decide
  | case5 c s hc => cases h; simpa using hc

/-- The first token is the same with a line feed behind the text, unless it is junk,
    and so is the place where the others are found. -/
theorem tokens_lineFeed (hskip : skipBlanks s = c :: rest) (h : (Lexeme.scan c rest).1 ≠ .junk)
    (t : List Char) :
    tokens (s ++ '\n' :: t) =
      ⟨(Lexeme.scan c rest).1, c :: (rest ++ '\n' :: t)⟩ ::
        tokens ((Lexeme.scan c rest).2 ++ '\n' :: t) := by
  have hc : c ≠ ';' := by
    rintro rfl
    exact h rfl
  have hskips := (skipBlanks_skips s).lineFeed t
  rw [hskip] at hskips
  rw [hskips.tokens_eq, List.cons_append,
    tokens_of_cons (skipBlanks_cons (isBlank_of_skipBlanks hskip) hc _), Lexeme.scan_lineFeed h]

namespace Reader

variable {r q : Reader}

/-- What is taken is no junk. -/
theorem Takes.ne_junk {l : Lexeme} (h : Takes r l q) : l ≠ .junk := by
  cases h <;> rintro ⟨⟩

/-- By induction on the tokens: a line feed changes none of those that are taken. -/
theorem feedAll_lineFeed (h : r.feedAll (tokens s) = .ok q) (t : List Char) :
    r.feedAll (tokens (s ++ '\n' :: t)) = q.feedAll (tokens t) := by
  generalize hts : tokens s = ts at h
  induction ts generalizing r s with
  | nil =>
    cases h
    have hskip := (tokens_eq_nil_iff.1 hts).lineFeed t
    rw [(hskip.trans (.blank rfl (.refl t))).tokens_eq]
  | cons u ts ih =>
    obtain ⟨c, s', hskip, rfl, rfl⟩ := tokens_eq_cons_iff.1 hts
    obtain ⟨r', htakes, h⟩ := feedAll_cons_eq_ok_iff.1 h
    rw [tokens_lineFeed hskip htakes.ne_junk t]
    exact (htakes.feedAll_cons _ _).trans (ih rfl h)

/-! ### Completing what is begun -/

theorem feedAll_mark {l : Lexeme} (hl : l.mark? = some c) (hc : isBlank c = false ∧ c ≠ ';')
    (h : Takes r l q) (t : List Char) :
    r.feedAll (tokens (c :: t)) = q.feedAll (tokens t) := by
  have hscan : Lexeme.scan c t = (l, t) := (Lexeme.scan_mark_iff hl).2 ⟨rfl, rfl⟩
  rw [tokens_of_cons (skipBlanks_cons hc.1 hc.2 t), hscan, h.feedAll_cons]

theorem feedAll_closing (h : Takes r .closing q) (t : List Char) :
    r.feedAll (tokens (')' :: t)) = q.feedAll (tokens t) :=
  feedAll_mark rfl (by decide) h t

/-- Where a datum may begin, an empty list does. -/
theorem feedAll_empty {frames : List Frame} {forms : List Datum} (ho : Open frames)
    (hlt : frames.length < maxNesting) (t : List Char) :
    feedAll ⟨frames, forms⟩ (tokens ('(' :: ')' :: t)) =
      (place .nil forms frames).feedAll (tokens t) := by
  rw [feedAll_mark rfl (by decide) (.opening ho hlt), feedAll_closing .closing]
  rfl

/-- Behind a complete datum, parentheses close all frames, from the innermost on. -/
theorem exists_closing (d : Datum) (forms : List Datum) (frames : List Frame) :
    ∃ t x, (place d forms frames).feedAll (tokens t) = .ok ⟨[], x :: forms⟩ := by
  induction frames generalizing d with
  | nil => exact ⟨[], d, by rw [tokens_eq_nil_iff.2 (.refl [])]; rfl⟩
  | cons frame frames ih =>
    cases frame with
    | quoted => exact ih d.quote
    | list items =>
      obtain ⟨t, x, ht⟩ := ih (.ofList (d :: items).reverse .nil)
      exact ⟨')' :: t, x, (feedAll_closing .closing t).trans ht⟩
    | dotted items =>
      obtain ⟨t, x, ht⟩ := ih (.ofList items.reverse d)
      exact ⟨')' :: t, x, (feedAll_closing .ended t).trans ht⟩
    | ended items tail =>
      obtain ⟨t, x, ht⟩ := ih (.ofList items.reverse tail)
      exact ⟨')' :: t, x, (feedAll_closing .ended t).trans ht⟩

/-- Where a text ends too early, but not too deep, some text goes on to a form. -/
theorem exists_completion (h : q.endFault.cause = .unexpectedEnd) :
    ∃ t x, q.feedAll (tokens t) = .ok ⟨[], x :: q.forms⟩ := by
  obtain ⟨frames, forms⟩ := q
  have hbegin (ho : Open frames) (hlt : frames.length < maxNesting) :
      ∃ t x, feedAll ⟨frames, forms⟩ (tokens t) = .ok ⟨[], x :: forms⟩ := by
    obtain ⟨t, x, ht⟩ := exists_closing .nil forms frames
    exact ⟨'(' :: ')' :: t, x, (feedAll_empty ho hlt t).trans ht⟩
  have hclose {d : Datum} {outer : List Frame}
      (htakes : Takes ⟨frames, forms⟩ .closing (place d forms outer)) :
      ∃ t x, feedAll ⟨frames, forms⟩ (tokens t) = .ok ⟨[], x :: forms⟩ := by
    obtain ⟨t, x, ht⟩ := exists_closing d forms outer
    exact ⟨')' :: t, x, (feedAll_closing htakes t).trans ht⟩
  cases frames with
  | nil => exact hbegin (by rintro _ _ _ ⟨⟩) (by decide)
  | cons frame outer =>
    cases frame with
    | quoted | dotted =>
      -- The datum that is missing has its place.
      refine hbegin (by rintro _ _ _ ⟨⟩) (Nat.lt_of_not_le fun hle => ?_)
      rw [endFault, if_pos hle] at h
      cases h
    | list => exact hclose .closing
    | ended => exact hclose .ended

end Reader

/-! ### The place of a fault -/

open Reader

/-- Where a text fails: at one of its tokens, or at its end. -/
inductive Fault.Of (ts : List Token) : Fault → Prop
  | token {f : Fault} {t : Token} : t ∈ ts → f.rest = t.text → f.cause ≠ .unexpectedEnd →
      Fault.Of ts f
  | tooDeep : Fault.Of ts ⟨.tooDeep, []⟩
  | unexpectedEnd : Fault.Of ts ⟨.unexpectedEnd, []⟩

theorem Fault.Of.endFault (ts : List Token) (r : Reader) : Fault.Of ts r.endFault := by
  rcases r.endFault_eq with h | h
  · rw [h]; exact .tooDeep
  · rw [h]; exact .unexpectedEnd

theorem text_ne_nil_of_mem_tokens {u : Token} (h : u ∈ tokens s) : u.text ≠ [] := by
  generalize hts : tokens s = ts at h
  induction ts generalizing s with
  | nil => cases h
  | cons v ts ih =>
    obtain ⟨c, s', _, rfl, hrest⟩ := tokens_eq_cons_iff.1 hts
    cases h with
    | head => exact List.cons_ne_nil c s'
    | tail _ h => exact ih hrest h

theorem Fault.Cause.kind_eq_incomplete_iff {cause : Fault.Cause} :
    cause.kind = .incomplete ↔ cause = .unexpectedEnd := by
  cases cause <;> decide

theorem Fault.Cause.kind_eq_tooDeeplyNested_iff {cause : Fault.Cause} :
    cause.kind = .tooDeeplyNested ↔ cause = .tooDeep := by
  cases cause <;> decide

/-- A text is incomplete if it fails at its end, for another reason than its depth. -/
theorem Fault.Of.incomplete_iff {f : Fault} (h : f.Of (tokens s)) (text : List Char) :
    (f.report text).kind = .incomplete ↔
      (f.report text).found = none ∧ (f.report text).kind ≠ .tooDeeplyNested := by
  change f.cause.kind = _ ↔ f.rest.head? = none ∧ f.cause.kind ≠ _
  rw [Cause.kind_eq_incomplete_iff, ne_eq, Cause.kind_eq_tooDeeplyNested_iff, List.head?_eq_none_iff]
  cases h with
  | token ht hrest hcause =>
    rw [hrest]
    exact iff_of_false hcause fun h => text_ne_nil_of_mem_tokens ht h.1
  | tooDeep | unexpectedEnd => simp

/-! ### Completing a text -/

namespace Datum

variable {text : String} {e : ReadError}

/-- Some more text completes what is begun at the end of a text, as one more form. -/
theorem exists_feedAll_append {q : Reader} (h : start.feedAll (tokens text.toList) = .ok q)
    (hcause : q.endFault.cause = .unexpectedEnd) :
    ∃ more x, start.feedAll (tokens (text ++ more).toList) = .ok ⟨[], x :: q.forms⟩ := by
  obtain ⟨t, x, ht⟩ := exists_completion hcause
  refine ⟨String.ofList ('\n' :: t), x, ?_⟩
  rw [String.toList_append, String.toList_ofList, feedAll_lineFeed h t, ht]

theorem exists_read_append (h : read text = .error e) (hkind : e.kind = .incomplete) :
    ∃ more d, read (text ++ more) = .ok d := by
  obtain ⟨f, hf, rfl⟩ := read_eq_error_iff.1 h
  have hcause := Fault.Cause.kind_eq_incomplete_iff.1 hkind
  rcases readForm_eq_error rfl hf with ⟨_, _, _, hne⟩ | ⟨q, hall, hq, rfl⟩
  · exact absurd hcause hne
  · obtain ⟨more, x, hmore⟩ := exists_feedAll_append hall hcause
    rw [hq] at hmore
    exact ⟨more, x, read_eq_ok_iff_feedAll.2 hmore⟩

theorem exists_readAll_append (h : readAll text = .error e) (hkind : e.kind = .incomplete) :
    ∃ more ds, readAll (text ++ more) = .ok ds := by
  obtain ⟨f, hf, rfl⟩ := readAll_eq_error_iff.1 h
  have hcause := Fault.Cause.kind_eq_incomplete_iff.1 hkind
  rcases hf with hall | ⟨q, hall, _, rfl⟩
  · obtain ⟨t, _, hrefuses⟩ := feedAll_eq_error hall
    exact absurd hcause hrefuses.ne_unexpectedEnd
  · obtain ⟨more, x, hmore⟩ := exists_feedAll_append hall hcause
    refine ⟨more, (x :: q.forms).reverse, readAll_eq_ok_iff_feedAll.2 ?_⟩
    rw [List.reverse_reverse, hmore]

theorem of_read_eq_error (h : read text = .error e) :
    ∃ f : Fault, f.Of (tokens text.toList) ∧ f.report text.toList = e := by
  obtain ⟨f, hf, hreport⟩ := read_eq_error_iff.1 h
  rcases readForm_eq_error rfl hf with ⟨t, ht, hrest, hcause⟩ | ⟨q, _, _, rfl⟩
  · exact ⟨f, .token ht hrest hcause, hreport⟩
  · exact ⟨_, .endFault _ q, hreport⟩

theorem of_readAll_eq_error (h : readAll text = .error e) :
    ∃ f : Fault, f.Of (tokens text.toList) ∧ f.report text.toList = e := by
  obtain ⟨f, hf, hreport⟩ := readAll_eq_error_iff.1 h
  rcases hf with hall | ⟨q, _, _, rfl⟩
  · obtain ⟨t, ht, hrefuses⟩ := feedAll_eq_error hall
    exact ⟨f, .token ht hrefuses.rest hrefuses.ne_unexpectedEnd, hreport⟩
  · exact ⟨_, .endFault _ q, hreport⟩

end Datum

/-- A text that is incomplete is the beginning of a readable one, as one form and as
    any number of forms; and a text is incomplete exactly if it fails where it ends, for
    another reason than its depth. -/
theorem Alloc.read_completes (text : String) (next : Nat) :
    (∀ e, Alloc.read text next = .error (.read e) → e.kind = .incomplete →
      ∃ more, ∀ n, ∃ v n', Alloc.read (text ++ more) n = .ok (v, n')) ∧
    (∀ e, Alloc.readAll text next = .error (.read e) → e.kind = .incomplete →
      ∃ more, ∀ n, ∃ l n', Alloc.readAll (text ++ more) n = .ok (l, n')) ∧
    ∀ e, Alloc.read text next = .error (.read e) ∨ Alloc.readAll text next = .error (.read e) →
      (e.kind = .incomplete ↔ e.found = none ∧ e.kind ≠ .tooDeeplyNested) := by
  refine ⟨fun e h hkind => ?_, fun e h hkind => ?_, ?_⟩
  · obtain ⟨more, d, hd⟩ := Datum.exists_read_append (read_eq_error_iff.1 h) hkind
    exact ⟨more, fun n => ⟨_, _, read_eq_ok_iff.2 ⟨d, hd, rfl⟩⟩⟩
  · obtain ⟨more, ds, hds⟩ := Datum.exists_readAll_append (readAll_eq_error_iff.1 h) hkind
    exact ⟨more, fun n => ⟨_, _, readAll_eq_ok_iff.2 ⟨ds, hds, rfl⟩⟩⟩
  · rintro e (h | h)
    · obtain ⟨f, hf, rfl⟩ := Datum.of_read_eq_error (read_eq_error_iff.1 h)
      exact hf.incomplete_iff _
    · obtain ⟨f, hf, rfl⟩ := Datum.of_readAll_eq_error (readAll_eq_error_iff.1 h)
      exact hf.incomplete_iff _

/-- Two lists, a quote, a dot and a comment are all unfinished. -/
theorem read_completes_comment :
    let text := "(a '(b . ; c"
    ∃ e e', Alloc.read text 0 = .error (.read e) ∧ e.kind = .incomplete ∧ e.found = none ∧
      Alloc.readAll text 0 = .error (.read e') ∧ e'.kind = .incomplete ∧ e'.found = none ∧
      (∃ more, ∀ n, ∃ v n', Alloc.read (text ++ more) n = .ok (v, n')) ∧
      ∃ more, ∀ n, ∃ l n', Alloc.readAll (text ++ more) n = .ok (l, n') := by
  intro text
  obtain ⟨e, he, hkind⟩ : ∃ e, Datum.read text = .error e ∧ e.kind = .incomplete :=
    exists_error_of_eq_some ReadError.kind (by decide +kernel)
  obtain ⟨e', he', hkind'⟩ : ∃ e, Datum.readAll text = .error e ∧ e.kind = .incomplete :=
    exists_error_of_eq_some ReadError.kind (by decide +kernel)
  have hread : Alloc.read text 0 = _ := Alloc.read_eq_error_iff.2 he
  have hreadAll : Alloc.readAll text 0 = _ := Alloc.readAll_eq_error_iff.2 he'
  obtain ⟨hone, hall, hincomplete⟩ := Alloc.read_completes text 0
  have hfound := ((hincomplete e (.inl hread)).1 hkind).1
  have hfound' := ((hincomplete e' (.inr hreadAll)).1 hkind').1
  exact ⟨e, e', hread, hkind, hfound, hreadAll, hkind', hfound', hone e hread hkind,
    hall e' hreadAll hkind'⟩

end ConsMachine
