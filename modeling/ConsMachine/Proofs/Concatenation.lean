import ConsMachine.Proofs.Completion
import ConsMachine.Proofs.Reprinting

/-!
# Texts one after another

A program may be put together from texts, each on lines of its own: the forms of the
whole are the forms of the first text and then those of the second
(`Alloc.readAll_concatenated`). Where the second text cannot be read, neither can the
whole, and it fails with the same kind of error at the same character.

Behind a text that is read to its end, the reader is where it starts, but for the forms
that it holds (`Reader.feedAll_lineFeed`). These only wait: what the reader does with a
token does not depend on them (`Reader.feed_behind`), and so it makes the same of a text
whatever forms came before (`Reader.feedAll_behind`).
-/

namespace ConsMachine

/-! ### Forms that came before -/

namespace Reader

/-- A reader that had read other forms before. -/
def behind (r : Reader) (before : List Datum) : Reader :=
  ⟨r.frames, r.forms ++ before⟩

variable {r q : Reader} {t : Token} {f : Fault} {before : List Datum}

theorem place_behind (d : Datum) (forms before : List Datum) (frames : List Frame) :
    place d (forms ++ before) frames = (place d forms frames).behind before := by
  induction frames generalizing d with
  | nil => rfl
  | cons frame frames ih =>
    rcases frame with _ | items | items | ⟨items, tail⟩
    · exact ih d.quote
    · rfl
    · rfl
    · rfl

theorem begin_behind (frames : List Frame) (forms before : List Datum) (t : Token) :
    begin frames (forms ++ before) t = (begin frames forms t).map (behind · before) := by
  by_cases hle : maxNesting ≤ frames.length
  · rw [begin, begin, if_pos hle, if_pos hle]
    rfl
  · rw [begin, begin, if_neg hle, if_neg hle]
    rcases t with ⟨_ | _ | _ | _ | d | _ | _, text⟩
    case atom => exact congrArg Except.ok (place_behind d forms before frames)
    all_goals rfl

/-- A token does the same whatever forms came before it. -/
theorem feed_behind (r : Reader) (before : List Datum) (t : Token) :
    (r.behind before).feed t = (r.feed t).map (behind · before) := by
  obtain ⟨frames, forms⟩ := r
  have hbegin := begin_behind frames forms before t
  obtain ⟨l, text⟩ := t
  obtain _ | ⟨_ | items | items | ⟨items, tail⟩, outer⟩ := frames
  · exact hbegin
  · exact hbegin
  · -- A list takes its end and its dot itself.
    rcases l with _ | _ | _ | _ | d | _ | _
    case closing => exact congrArg Except.ok (place_behind _ forms before outer)
    case dot =>
      rcases items with _ | ⟨d, items⟩
      · rfl
      · rfl
    all_goals exact hbegin
  · exact hbegin
  · rcases l with _ | _ | _ | _ | d | _ | _
    case closing => exact congrArg Except.ok (place_behind _ forms before outer)
    all_goals rfl

/-- By induction on the tokens: the reader makes the same of them whatever forms came
    before. -/
theorem feedAll_behind (r : Reader) (before : List Datum) (ts : List Token) :
    (r.behind before).feedAll ts = (r.feedAll ts).map (behind · before) := by
  induction ts generalizing r with
  | nil => rfl
  | cons t ts ih =>
    rw [feedAll_cons, feedAll_cons, feed_behind]
    rcases r.feed t with f | q
    · rfl
    · exact ih q

end Reader

/-! ### Two texts -/

namespace Datum

open Reader

variable {s t : String} {ds es : List Datum} {e : ReadError}

/-- Behind a text that is read to its end, the reader makes of another text what it
    always does. -/
theorem feedAll_concatenated (hs : readAll s = .ok ds) (t : String) :
    start.feedAll (tokens (s ++ "\n" ++ t).toList) =
      (start.feedAll (tokens t.toList)).map (behind · ds.reverse) := by
  have htext : (s ++ "\n" ++ t).toList = s.toList ++ '\n' :: t.toList := by simp
  rw [htext, feedAll_lineFeed (readAll_eq_ok_iff_feedAll.1 hs)]
  exact feedAll_behind start ds.reverse (tokens t.toList)

theorem readAll_joined (hs : readAll s = .ok ds) (ht : readAll t = .ok es) :
    readAll (s ++ "\n" ++ t) = .ok (ds ++ es) := by
  rw [readAll_eq_ok_iff_feedAll, feedAll_concatenated hs, readAll_eq_ok_iff_feedAll.1 ht,
    List.reverse_append]
  rfl

/-- The second text is at fault in the whole as it is alone. -/
theorem readAll_joined_eq_error (hs : readAll s = .ok ds) (ht : readAll t = .error e) :
    ∃ f : Fault, f.report t.toList = e ∧
      readAll (s ++ "\n" ++ t) = .error (f.report (s ++ "\n" ++ t).toList) := by
  obtain ⟨f, hf, hreport⟩ := readAll_eq_error_iff.1 ht
  have hfeed := feedAll_concatenated hs t
  refine ⟨f, hreport, readAll_eq_error_iff.2 ⟨f, ?_, rfl⟩⟩
  rcases hf with hf | ⟨q, hq, hframes, hend⟩
  · rw [hf] at hfeed
    exact .inl hfeed
  · rw [hq] at hfeed
    exact .inr ⟨q.behind ds.reverse, hfeed, hframes, hend⟩

end Datum

/-! ### Values -/

/-- A list of values of data is a value of the list of these. -/
theorem Value.datum?_ofList {vs : List Value} {ds : List Datum}
    (h : vs.map datum? = ds.map some) (next : Nat) :
    (ofList vs nil next).1.datum? = some (.ofList ds .nil) := by
  induction vs generalizing ds with
  | nil =>
    rw [List.map_eq_nil_iff.1 h.symm]
    rfl
  | cons v vs ih =>
    obtain ⟨d, ds, rfl, hv, hvs⟩ := List.map_eq_cons_iff.1 h.symm
    exact datum?_pair_eq_some_iff.2 ⟨d, _, hv.symm, ih hvs.symm, rfl⟩

theorem Value.items_of_list? {v : Value} {vs : List Value} (h : v.list? = some vs) :
    v.items = vs := by
  rw [list?, Option.ite_none_right_eq_some] at h
  exact Option.some.inj h.2

/-- Programs can be concatenated. If a text is read, then it can be read with another
    text on the lines below it exactly if this one can be read: the forms are then those
    of the first text followed by those of the second; and if the second text cannot be
    read, the whole fails with the same kind of error and the same character found. -/
theorem Alloc.readAll_concatenated (s t : String) (k m n : Nat) (l : Value) (k' : Nat)
    (hs : Alloc.readAll s k = .ok (l, k')) :
    (∀ l' m', Alloc.readAll t m = .ok (l', m') →
      ∃ whole n', Alloc.readAll (s ++ "\n" ++ t) n = .ok (whole, n') ∧
        ∀ next, whole.Equal (Value.ofList (l.items ++ l'.items) .nil next).1 ∧
          whole.equal (Value.ofList (l.items ++ l'.items) .nil next).1 = true) ∧
    ∀ error, Alloc.readAll t m = .error error →
      ∃ e e', error = .read e ∧ Alloc.readAll (s ++ "\n" ++ t) n = .error (.read e') ∧
        e'.kind = e.kind ∧ e'.found = e.found := by
  obtain ⟨ds, vs, hds, hvs, hmap⟩ := exists_forms_of_readAll hs
  refine ⟨fun l' m' ht => ?_, fun error ht => ?_⟩
  · obtain ⟨es, ws, hes, hws, hmap'⟩ := exists_forms_of_readAll ht
    have hwhole := Datum.readAll_joined hds hes
    refine ⟨_, _, readAll_eq_ok_iff.2 ⟨_, hwhole, rfl⟩, fun next => ?_⟩
    have hitems : (vs ++ ws).map Value.datum? = (ds ++ es).map some := by
      rw [List.map_append, List.map_append, hmap, hmap']
    have hequal := (Value.equal_iff_of_datum? (Value.datum?_load _ n)).2
      (Value.datum?_ofList hitems next)
    rw [Value.items_of_list? hvs, Value.items_of_list? hws]
    exact ⟨hequal, hequal.equal⟩
  · -- Nothing but the text can be at fault.
    obtain ⟨e, rfl, he⟩ : ∃ e, error = .read e ∧ Datum.readAll t = .error e := by
      rw [Alloc.readAll_eq] at ht
      split at ht
      · cases ht
      · rename_i e he
        cases ht
        exact ⟨e, rfl, he⟩
    obtain ⟨f, rfl, hwhole⟩ := Datum.readAll_joined_eq_error hds he
    exact ⟨_, _, rfl, readAll_eq_error_iff.2 hwhole, rfl, rfl⟩

/-- A comment at the end of a text does not reach into the next, and a list that is open
    there is the only thing wrong with the whole. -/
theorem readAll_concatenated_comment :
    let s := "a ; b"
    (∃ l l' whole n', Alloc.readAll s 0 = .ok (l, 1) ∧ Alloc.readAll "(c)" 1 = .ok (l', 3) ∧
      Alloc.readAll (s ++ "\n" ++ "(c)") 3 = .ok (whole, n') ∧
      whole.equal (Value.ofList (l.items ++ l'.items) .nil 9).1 = true) ∧
    ∃ e e', Alloc.readAll "c (" 1 = .error (.read e) ∧ e.kind = .incomplete ∧
      Alloc.readAll (s ++ "\n" ++ "c (") 1 = .error (.read e') ∧ e'.kind = e.kind ∧
      e'.found = e.found := by
  intro s
  have hread : Datum.readAll s = .ok [.symbol "a"] := eq_ok_of_toOption (by decide +kernel)
  have hs : Alloc.readAll s 0 = .ok ((Datum.ofList [.symbol "a"] .nil).load 0) :=
    Alloc.readAll_eq_ok_iff.2 ⟨_, hread, rfl⟩
  constructor
  · let d : Datum := .ofList [.symbol "c"] .nil
    have hlist : Datum.readAll "(c)" = .ok [d] := eq_ok_of_toOption (by decide +kernel)
    have ht : Alloc.readAll "(c)" 1 = .ok ((Datum.ofList [d] .nil).load 1) :=
      Alloc.readAll_eq_ok_iff.2 ⟨_, hlist, rfl⟩
    obtain ⟨whole, n', hwhole, hequal⟩ :=
      (Alloc.readAll_concatenated s "(c)" 0 1 3 _ _ hs).1 _ _ ht
    exact ⟨_, _, whole, n', hs, ht, hwhole, (hequal 9).2⟩
  · obtain ⟨e, he, hkind⟩ : ∃ e, Datum.readAll "c (" = .error e ∧ e.kind = .incomplete :=
      exists_error_of_eq_some ReadError.kind (by decide +kernel)
    have ht : Alloc.readAll "c (" 1 = .error (.read e) := Alloc.readAll_eq_error_iff.2 he
    obtain ⟨e₀, e', heq, hwhole, hkind', hfound⟩ :=
      (Alloc.readAll_concatenated s "c (" 0 1 1 _ _ hs).2 _ ht
    obtain rfl : e = e₀ := Error.read.inj heq
    exact ⟨e, e', ht, hkind, hwhole, hkind', hfound⟩

end ConsMachine
