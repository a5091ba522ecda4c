import ConsMachine.Proofs.Completion
import ConsMachine.Proofs.Excerpts

/-!
# The place of an error

An error of reading is reported where the text that could not be read begins. That place
is one the reader has come to: the text before it is what the grammar reads as the frames
and the forms there (`Progress`), and so what is left is a suffix of the text
(`Progress.suffix`). `Fault.Stands` says for each cause what stands there: an integer that
64 bits do not hold (`OutOfRange`), or the break of a dotted pair (`BreaksPair`).

The reader stops at the first token that it refuses. Up to there the tokens are taken, and
that is progress (`Progress.exists_of_feedAll`); the token itself is refused for what
stands there (`Progress.stands_of_feed`). So it is when all forms of a text are read
(`Fault.Stands.of_feedAll`, `Fault.Stands.endFault`) and when only one is
(`Fault.Stands.of_readForm`), and `Alloc.read_error_placed` follows.
-/

namespace ConsMachine

variable {text s t rest : List Char} {c : Char} {d : Datum}

/-! ### What is left of a text -/

theorem Skips.suffix (h : Skips s t) : t <:+ s := by
  induction h with
  | refl => exact List.suffix_rfl
  | blank _ _ ih => exact ih.trans (List.suffix_cons _ _)
  | comment _ _ _ ih => exact ih.trans ((List.suffix_append _ _).trans (List.suffix_cons _ _))

theorem Atom.suffix (h : Atom s d rest) : rest <:+ s := by
  cases h with
  | number | symbol => exact List.suffix_append _ _
  | true | false => exact List.suffix_append ['#', _] rest

mutual

theorem Denotes.suffix {depth : Nat} {s rest : List Char} {d : Datum}
    (h : Denotes depth s d rest) : rest <:+ s :=
  match h with
  | .atom _ ha => ha.suffix
  | .quote _ hs hd => (hd.suffix.trans hs.suffix).trans (List.suffix_cons _ _)
  | .list _ hds => ((List.suffix_cons _ _).trans hds.suffix).trans (List.suffix_cons _ _)
  | .dotted _ hds _ _ hs hd hclose =>
    have htail := ((List.suffix_cons _ _).trans hclose.suffix).trans (hd.suffix.trans hs.suffix)
    ((htail.trans (List.suffix_cons _ _)).trans hds.suffix).trans (List.suffix_cons _ _)

theorem Items.suffix {depth : Nat} {s rest : List Char} {ds : List Datum}
    (h : Items depth s ds rest) : rest <:+ s :=
  match h with
  | .nil hs => hs.suffix
  | .cons hs hd hds => hds.suffix.trans (hd.suffix.trans hs.suffix)

end

open Reader

variable {frames : List Frame} {forms : List Datum} {r q : Reader} {f : Fault}

/-- What is not yet read is a suffix of the text. -/
theorem Progress.suffix (h : Progress text frames forms s) : s <:+ text := by
  induction h with
  | forms hds => exact hds.suffix
  | quoted _ _ _ hs ih => exact (hs.suffix.trans (List.suffix_cons _ _)).trans ih
  | list _ _ _ hds ih => exact (hds.suffix.trans (List.suffix_cons _ _)).trans ih
  | dotted _ _ _ hs ih => exact (hs.suffix.trans (List.suffix_cons _ _)).trans ih
  | ended _ htail hs ih => exact (hs.suffix.trans htail.suffix).trans ih

/-! ### What stands at a fault -/

/-- A word stands here that is a numeral, and its value is none that 64 bits hold. -/
def OutOfRange (s : List Char) : Prop :=
  ∃ w rest i, s = w ++ rest ∧ IsRun w rest ∧ Numeral w i ∧
    (i < Int64.minValue.toInt ∨ Int64.maxValue.toInt < i)

/-- A pair is broken here: by a lone dot in a list without an item before it, or by
    something other than a closing parenthesis behind a complete tail. -/
inductive BreaksPair (text : List Char) : List Char → Prop
  | noItem {frames : List Frame} {forms : List Datum} {s : List Char} :
      Progress text (.list [] :: frames) forms ('.' :: s) → startsWord s = false →
      BreaksPair text ('.' :: s)
  | noClosing {frames : List Frame} {forms items : List Datum} {tail : Datum} {c : Char}
      {s : List Char} : Progress text (.ended items tail :: frames) forms (c :: s) →
      skipBlanks (c :: s) = c :: s → c ≠ ')' → BreaksPair text (c :: s)

/-- What stands in a text where a fault is reported, by its cause. -/
inductive Fault.Stands (text : List Char) : Fault → Prop
  | tooDeep {frames : List Frame} {forms : List Datum} {rest : List Char} :
      Progress text frames forms rest → maxNesting ≤ frames.length → Stands text ⟨.tooDeep, rest⟩
  | unexpectedEnd {frames : List Frame} {forms : List Datum} :
      Progress text frames forms [] → Stands text ⟨.unexpectedEnd, []⟩
  | outOfRange {frames : List Frame} {forms : List Datum} {rest : List Char} :
      Progress text frames forms rest → OutOfRange rest → Stands text ⟨.outOfRange, rest⟩
  | malformedPair {rest : List Char} : BreaksPair text rest → Stands text ⟨.malformedPair, rest⟩
  | invalid {frames : List Frame} {forms : List Datum} {rest : List Char} :
      Progress text frames forms rest → (∀ d t, ¬ Atom rest d t) → Stands text ⟨.invalid, rest⟩
  | trailing {d : Datum} {rest : List Char} :
      Progress text [] [d] rest → Stands text ⟨.trailing, rest⟩

theorem BreaksPair.suffix (h : BreaksPair text s) : s <:+ text := by
  cases h with
  | noItem h | noClosing h => exact h.suffix

theorem Fault.Stands.suffix (h : f.Stands text) : f.rest <:+ text := by
  cases h with
  | tooDeep h | unexpectedEnd h | outOfRange h | invalid h | trailing h => exact h.suffix
  | malformedPair h => exact h.suffix

theorem Lexeme.ofWord_eq_outOfRange_iff {w : List Char} : ofWord w = .outOfRange ↔
    ∃ i, Numeral w i ∧ (i < Int64.minValue.toInt ∨ Int64.maxValue.toInt < i) := by
  simp only [← integer?_eq_some_iff, ← Number.ofInt?_eq_none_iff]
  rw [ofWord]
  split
  · rename_i hdot
    subst hdot
    simp [integer?, digits?]
  · cases hi : integer? w with
    | none => by_cases hname : isSymbolName w = true <;> simp [hname]
    | some i => cases hn : Number.ofInt? i <;> simp [hn]

theorem OutOfRange.of_scan (h : (Lexeme.scan c s).1 = .outOfRange) : OutOfRange (c :: s) := by
  cases hscan : Lexeme.scan c s with | mk l rest
  obtain rfl : l = .outOfRange := by rwa [hscan] at h
  cases Lexeme.found_of_scan hscan with
  | mark hc => cases hc
  | word hrun hword =>
    obtain ⟨i, hi, hrange⟩ := Lexeme.ofWord_eq_outOfRange_iff.1 hword
    exact ⟨_, _, i, rfl, hrun, hi, hrange⟩

theorem Lexeme.not_atom_of_scan (h : ∀ d, (scan c s).1 ≠ .atom d) (d : Datum) (t : List Char) :
    ¬ Atom (c :: s) d t := fun ha => h d (by rw [scan_atom_iff.2 ha])

namespace Progress

/-- A token that begins no datum stands where one should begin. -/
theorem stands_of_begin (h : Progress text frames forms (c :: s))
    (hf : begin frames forms ⟨(Lexeme.scan c s).1, c :: s⟩ = .error f) : f.Stands text := by
  rw [begin] at hf
  split at hf
  · rename_i hle
    cases hf
    exact .tooDeep h hle
  · split at hf
    case h_4 hl => cases hf; exact .outOfRange h (.of_scan hl)
    case h_5 hl | h_6 hl | h_7 hl =>
      cases hf
      exact .invalid h (Lexeme.not_atom_of_scan fun d hd => by cases hl.symm.trans hd)
    all_goals cases hf

/-- A token that is refused stands where its fault is. -/
theorem stands_of_feed (h : Progress text r.frames r.forms (c :: s))
    (hskip : skipBlanks (c :: s) = c :: s)
    (hf : r.feed ⟨(Lexeme.scan c s).1, c :: s⟩ = .error f) : f.Stands text := by
  obtain ⟨frames, forms⟩ := r
  rw [feed] at hf
  split at hf
  case h_2 hframes hl =>
    cases hf
    cases hframes
    obtain ⟨rfl, _, hstart⟩ := Lexeme.scan_dot_iff.1 (Prod.ext hl rfl)
    exact .malformedPair (.noItem h hstart)
  case h_5 hframes hclosing =>
    cases hf
    cases hframes
    refine .malformedPair (.noClosing h hskip ?_)
    rintro rfl
    exact hclosing rfl
  case h_6 => exact h.stands_of_begin hf
  all_goals cases hf

/-- By induction on the tokens: where those before a token are taken, the reader comes to
    this token. -/
theorem exists_of_feedAll {ts us : List Token} {u : Token} (h : Progress text r.frames r.forms s)
    (hts : tokens s = ts ++ u :: us) (hq : r.feedAll ts = .ok q) :
    ∃ c t, Progress text q.frames q.forms (c :: t) ∧ skipBlanks (c :: t) = c :: t ∧
      u = ⟨(Lexeme.scan c t).1, c :: t⟩ := by
  have hskips := skipBlanks_skips s
  induction ts generalizing r s with
  | nil =>
    cases hq
    obtain ⟨c, t, hskip, rfl, _⟩ := tokens_eq_cons_iff.1 hts
    rw [hskip] at hskips
    exact ⟨c, t, h.skips hskips, hskips.skipBlanks_eq.symm.trans hskip, rfl⟩
  | cons t ts ih =>
    obtain ⟨c, v, hskip, rfl, hrest⟩ := tokens_eq_cons_iff.1 hts
    obtain ⟨r', htakes, hq⟩ := feedAll_cons_eq_ok_iff.1 hq
    rw [hskip] at hskips
    exact ih ((h.skips hskips).takes htakes rfl) hrest hq (skipBlanks_skips _)

end Progress

/-! ### Faults stand where they are reported -/

namespace Fault.Stands

theorem of_feedAll (h : start.feedAll (tokens text) = .error f) : f.Stands text := by
  obtain ⟨us, t, vs, q, hts, hq, hf⟩ := exists_of_feedAll_eq_error h
  obtain ⟨c, u, hu, hskip, rfl⟩ := (Progress.start text).exists_of_feedAll (r := start) hts hq
  exact hu.stands_of_feed hskip hf

/-- A text that ends too early is read up to its end. -/
theorem endFault (h : start.feedAll (tokens text) = .ok q) : q.endFault.Stands text := by
  have hend := (Progress.start text).feedAll (r := start) h
  rw [Reader.endFault]
  split
  · split
    · rename_i hle; exact .tooDeep hend hle
    · exact .unexpectedEnd hend
  · split
    · rename_i hle; exact .tooDeep hend hle
    · exact .unexpectedEnd hend
  · exact .unexpectedEnd hend

theorem of_readForm (h : start.readForm (tokens text) = .error f) : f.Stands text := by
  cases firstForm (r := start) rfl (tokens text) with
  | fault hall hone =>
    cases hone.symm.trans h
    exact .of_feedAll hall
  | unfinished hall _ hone =>
    cases hone.symm.trans h
    exact .endFault hall
  | @complete d us vs hts hus hone =>
    rw [hone] at h
    cases vs with
    | nil => cases h
    | cons t vs =>
      cases h
      obtain ⟨c, u, hu, _, rfl⟩ := (Progress.start text).exists_of_feedAll (r := start) hts hus
      exact .trailing hu

theorem outOfRange_of_cause (h : f.Stands text) (hcause : f.cause = .outOfRange) :
    OutOfRange f.rest := by
  cases h with
  | outOfRange _ hrange => exact hrange
  | _ => cases hcause

theorem breaksPair_of_cause (h : f.Stands text) (hcause : f.cause = .malformedPair) :
    BreaksPair text f.rest := by
  cases h with
  | malformedPair hbreak => exact hbreak
  | _ => cases hcause

end Fault.Stands

/-! ### Errors -/

variable {text : String} {e : ReadError} {n : String}

theorem Datum.exists_stands_of_read (h : read text = .error e) :
    ∃ f : Fault, f.Stands text.toList ∧ f.report text.toList = e := by
  obtain ⟨f, hf, he⟩ := read_eq_error_iff.1 h
  exact ⟨f, .of_readForm hf, he⟩

theorem Datum.exists_stands_of_readAll (h : readAll text = .error e) :
    ∃ f : Fault, f.Stands text.toList ∧ f.report text.toList = e := by
  obtain ⟨f, hf, he⟩ := readAll_eq_error_iff.1 h
  rcases hf with hall | ⟨q, hall, _, rfl⟩
  · exact ⟨f, .of_feedAll hall, he⟩
  · exact ⟨_, .endFault hall, he⟩

/-- The message about an integer is given for no other cause, and names the place. -/
theorem Fault.of_message_outOfRange {text : List Char}
    (h : f.message text = "Integer literal out of range at position " ++ n) :
    f.cause = .outOfRange ∧ n = (byteLength text - byteLength f.rest).repr := by
  obtain ⟨cause, rest⟩ := f
  cases cause with
  | outOfRange => exact ⟨rfl, ((String.append_right_inj _).1 h).symm⟩
  | _ => simp [message, String.ext_iff] at h

/-- The message about a pair is given for no other cause, and names the place. -/
theorem Fault.of_message_malformedPair {text : List Char}
    (h : f.message text = "Malformed dotted pair at position " ++ n) :
    f.cause = .malformedPair ∧ n = (byteLength text - byteLength f.rest).repr := by
  obtain ⟨cause, rest⟩ := f
  cases cause with
  | malformedPair => exact ⟨rfl, ((String.append_right_inj _).1 h).symm⟩
  | _ => simp [message, String.ext_iff] at h

/-- Every text is read or is an error of reading, as one form and as any number of forms,
    and every error stands at a position of the text, with some of the text before it and
    the rest behind:

    * it is the error placed at this position, with the excerpt around it, and the
      character found is the first one of the rest, or none exactly if there is no rest;
    * an integer is out of range only if such a numeral stands at this position, and a
      pair is malformed only if it breaks there, and their messages name this position. -/
theorem Alloc.read_error_placed (text : String) (next : Nat) :
    ((∃ v n, Alloc.read text next = .ok (v, n)) ∨
      ∃ e, Alloc.read text next = .error (.read e)) ∧
    ((∃ l n, Alloc.readAll text next = .ok (l, n)) ∨
      ∃ e, Alloc.readAll text next = .error (.read e)) ∧
    ∀ e, Alloc.read text next = .error (.read e) ∨ Alloc.readAll text next = .error (.read e) →
      ∃ before rest, text.toList = before ++ rest ∧
        ReadError.placed? e.kind e.message text.toList (byteLength before) = some e ∧
        e.context = some (excerpt text.toList (byteLength before)) ∧
        e.found = rest.head? ∧ (e.found = none ↔ rest = []) ∧
        (∀ n, e.message = "Integer literal out of range at position " ++ n →
          n = (byteLength before).repr ∧ OutOfRange rest) ∧
        ∀ n, e.message = "Malformed dotted pair at position " ++ n →
          n = (byteLength before).repr ∧ BreaksPair text.toList rest := by
  refine ⟨?_, ?_, fun e he => ?_⟩
  · rw [Alloc.read_eq]
    cases Datum.read text with
    | ok d => exact .inl ⟨_, _, rfl⟩
    | error e => exact .inr ⟨e, rfl⟩
  · rw [Alloc.readAll_eq]
    cases Datum.readAll text with
    | ok ds => exact .inl ⟨_, _, rfl⟩
    | error e => exact .inr ⟨e, rfl⟩
  · obtain ⟨f, hf, rfl⟩ : ∃ f : Fault, f.Stands text.toList ∧ f.report text.toList = e := by
      rcases he with h | h
      · exact Datum.exists_stands_of_read (read_eq_error_iff.1 h)
      · exact Datum.exists_stands_of_readAll (readAll_eq_error_iff.1 h)
    obtain ⟨before, htext⟩ := hf.suffix
    have hposition : byteLength text.toList - byteLength f.rest = byteLength before := by
      rw [← htext, byteLength_append, Nat.add_sub_cancel]
    refine ⟨before, f.rest, htext.symm, ?_, ?_, rfl, List.head?_eq_none_iff, ?_, ?_⟩
    · have hle : byteLength before ≤ byteLength text.toList := by
        rw [← hposition]
        exact Nat.sub_le _ _
      rw [ReadError.placed?, Nat.min_eq_left hle, ← htext, suffixAt?_byteLength, htext]
      rfl
    · rw [Fault.report, ReadError.placed, hposition]
    · intro n hn
      obtain ⟨hcause, hn⟩ := Fault.of_message_outOfRange hn
      exact ⟨hposition ▸ hn, hf.outOfRange_of_cause hcause⟩
    · intro n hn
      obtain ⟨hcause, hn⟩ := Fault.of_message_malformedPair hn
      exact ⟨hposition ▸ hn, hf.breaksPair_of_cause hcause⟩

/-- Characters of two bytes before a dot that nothing stands before, and before a numeral
    behind a form that is complete. -/
theorem Alloc.read_error_placed_greek :
    let pair := "; λ\n(. λ)"
    let numeral := "λ 9223372036854775808"
    (∃ e before rest, Alloc.read pair 0 = .error (.read e) ∧
      pair.toList = before ++ rest ∧ (byteLength before).repr = "6" ∧ e.found = rest.head? ∧
      BreaksPair pair.toList rest) ∧
    ∃ e before rest, Alloc.readAll numeral 0 = .error (.read e) ∧
      numeral.toList = before ++ rest ∧ (byteLength before).repr = "3" ∧ e.found = rest.head? ∧
      OutOfRange rest := by
  intro pair numeral
  constructor
  · obtain ⟨e, he, hmessage⟩ : ∃ e, Datum.read pair = .error e ∧
        e.message = "Malformed dotted pair at position " ++ "6" :=
      exists_error_of_eq_some ReadError.message (by decide +kernel)
    have hread : Alloc.read pair 0 = _ := Alloc.read_eq_error_iff.2 he
    obtain ⟨_, _, hplaced⟩ := Alloc.read_error_placed pair 0
    obtain ⟨before, rest, hparts, _, _, hfound, _, _, hpair⟩ := hplaced e (.inl hread)
    obtain ⟨hn, hbreak⟩ := hpair _ hmessage
    exact ⟨e, before, rest, hread, hparts, hn.symm, hfound, hbreak⟩
  · obtain ⟨e, he, hmessage⟩ : ∃ e, Datum.readAll numeral = .error e ∧
        e.message = "Integer literal out of range at position " ++ "3" :=
      exists_error_of_eq_some ReadError.message (by decide +kernel)
    have hread : Alloc.readAll numeral 0 = _ := Alloc.readAll_eq_error_iff.2 he
    obtain ⟨_, _, hplaced⟩ := Alloc.read_error_placed numeral 0
    obtain ⟨before, rest, hparts, _, _, hfound, _, hinteger, _⟩ := hplaced e (.inr hread)
    obtain ⟨hn, hrange⟩ := hinteger _ hmessage
    exact ⟨e, before, rest, hread, hparts, hn.symm, hfound, hrange⟩

end ConsMachine
