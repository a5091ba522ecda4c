import ConsMachine.Proofs.Forms
import ConsMachine.Proofs.Grammar

/-!
# Reading in progress

What the reader holds says how far it has come: `Progress text frames forms s` relates
the frames and the forms to the part of `text` before `s`. The forms are data that the
grammar has there; each frame is a list or a quote mark begun at a place where a datum
may stand, with the items that the grammar has behind it.

A token that the reader takes keeps this true (`Progress.takes`), and so does every
run of tokens (`Progress.feedAll`). So whatever the reader makes of a text, it follows
the grammar: with no frame left, the text consists of the forms (`Items.of_feedAll`).
-/

namespace ConsMachine

/-! ### Items one after another -/

variable {text s t u rest : List Char} {c : Char} {d : Datum} {depth : Nat}

theorem Skips.trans (hst : Skips s t) (htu : Skips t u) : Skips s u := by
  induction hst with
  | refl => exact htu
  | blank hc _ ih => exact .blank hc (ih htu)
  | comment hbody hend _ ih => exact .comment hbody hend (ih htu)

theorem Items.skips {depth : Nat} {s t u : List Char} {ds : List Datum} (h : Items depth s ds t)
    (ht : Skips t u) : Items depth s ds u :=
  match h with
  | .nil hs => .nil (hs.trans ht)
  | .cons hs hd hds => .cons hs hd (hds.skips ht)

/-- One more item at the end. -/
theorem Items.concat {depth : Nat} {s t u : List Char} {ds : List Datum} {d : Datum}
    (h : Items depth s ds t) (hd : Denotes depth t d u) : Items depth s (ds ++ [d]) u :=
  match h with
  | .nil hs => .cons hs hd (.nil (.refl u))
  | .cons hs hx hds => .cons hs hx (hds.concat hd)

/-- One item and nothing else, with blanks around it. -/
theorem Items.single_iff : Items depth s [d] t ↔
    ∃ u v, Skips s u ∧ Denotes depth u d v ∧ Skips v t := by
  constructor
  · rintro ⟨⟩
    rename_i hs hd hds
    cases hds with
    | nil ht => exact ⟨_, _, hs, hd, ht⟩
  · rintro ⟨u, v, hs, hd, ht⟩
    exact .cons hs hd (.nil ht)

/-! ### Tokens one after another -/

theorem tokens_eq_nil_iff : tokens s = [] ↔ Skips s [] := by
  rw [Skips.nil_iff]
  cases hs : skipBlanks s with
  | nil => simp [tokens_of_nil hs]
  | cons c r => simp [tokens_of_cons hs]

theorem tokens_eq_cons_iff {t : Token} {ts : List Token} :
    tokens s = t :: ts ↔ ∃ c r, skipBlanks s = c :: r ∧ ⟨(Lexeme.scan c r).1, c :: r⟩ = t ∧
      tokens (Lexeme.scan c r).2 = ts := by
  cases hs : skipBlanks s with
  | nil => simp [tokens_of_nil hs]
  | cons c r =>
    rw [tokens_of_cons hs, List.cons.injEq]
    constructor
    · rintro ⟨ht, hts⟩
      exact ⟨c, r, rfl, ht, hts⟩
    · rintro ⟨_, _, ⟨⟩, ht, hts⟩
      exact ⟨ht, hts⟩

/-! ### Progress -/

open Reader

/-- The part of a text before `s` that is read, as frames and forms. -/
inductive Progress (text : List Char) : List Frame → List Datum → List Char → Prop
  | forms {forms : List Datum} {s : List Char} : Items 0 text forms.reverse s →
      Progress text [] forms s
  | quoted {frames : List Frame} {forms : List Datum} {s t : List Char} :
      Progress text frames forms ('\'' :: s) → Open frames → frames.length < maxNesting →
      Skips s t → Progress text (.quoted :: frames) forms t
  | list {frames : List Frame} {forms items : List Datum} {s t : List Char} :
      Progress text frames forms ('(' :: s) → Open frames → frames.length < maxNesting →
      Items (frames.length + 1) s items.reverse t → Progress text (.list items :: frames) forms t
  | dotted {frames : List Frame} {forms items : List Datum} {s t : List Char} :
      Progress text (.list items :: frames) forms ('.' :: s) → items ≠ [] →
      startsWord s = false → Skips s t → Progress text (.dotted items :: frames) forms t
  | ended {frames : List Frame} {forms items : List Datum} {tail : Datum} {s t u : List Char} :
      Progress text (.dotted items :: frames) forms s → Denotes (frames.length + 1) s tail t →
      Skips t u → Progress text (.ended items tail :: frames) forms u

namespace Progress

variable {frames : List Frame} {forms : List Datum} {r q : Reader}

theorem start (text : List Char) : Progress text [] [] text :=
  .forms (.nil (.refl text))

theorem skips (h : Progress text frames forms s) (hs : Skips s t) :
    Progress text frames forms t := by
  cases h with
  | forms hds => exact .forms (hds.skips hs)
  | quoted h ho hlt ht => exact .quoted h ho hlt (ht.trans hs)
  | list h ho hlt hds => exact .list h ho hlt (hds.skips hs)
  | dotted h hne hstart ht => exact .dotted h hne hstart (ht.trans hs)
  | ended h htail ht => exact .ended h htail (ht.trans hs)

/-- A datum of the grammar goes to the innermost frame, and to the next one as long as
    it completes a quote. -/
theorem place (h : Progress text frames forms s) (ho : Open frames)
    (hd : Denotes frames.length s d t) :
    Progress text (place d forms frames).frames (place d forms frames).forms t := by
  induction frames generalizing s d with
  | nil =>
    cases h with
    | forms hds => exact .forms (by simpa [Reader.place] using hds.concat hd)
  | cons frame frames ih =>
    cases h with
    | quoted h ho' hlt hs => exact ih h ho' (.quote hlt hs hd)
    | list h ho' hlt hds => exact .list h ho' hlt (by simpa using hds.concat hd)
    | dotted h hne hstart hs => exact .ended (.dotted h hne hstart hs) hd (.refl t)
    | ended => exact absurd rfl (ho _ _ _)

/-- A token that is taken is progress. -/
theorem takes {l : Lexeme} (h : Progress text r.frames r.forms (c :: s))
    (hq : Takes r l q) (hscan : Lexeme.scan c s = (l, rest)) :
    Progress text q.frames q.forms rest := by
  cases hq with
  | closing =>
    obtain ⟨rfl, rfl⟩ := (Lexeme.scan_mark_iff rfl).1 hscan
    cases h with
    | list h ho hlt hds => exact h.place ho (.list hlt hds)
  | dot hne =>
    obtain ⟨rfl, rfl, hstart⟩ := Lexeme.scan_dot_iff.1 hscan
    exact .dotted h hne hstart (.refl _)
  | ended =>
    obtain ⟨rfl, rfl⟩ := (Lexeme.scan_mark_iff rfl).1 hscan
    -- The frame was a list first, then one behind its dot.
    cases h with
    | ended h htail hclose =>
      cases h with
      | dotted h hne hstart hs =>
        cases h with
        | list h ho hlt hds =>
          exact h.place ho (.dotted hlt hds (by simpa using hne) hstart hs htail hclose)
  | opening ho hlt =>
    obtain ⟨rfl, rfl⟩ := (Lexeme.scan_mark_iff rfl).1 hscan
    exact .list h ho hlt (.nil (.refl _))
  | quote ho hlt =>
    obtain ⟨rfl, rfl⟩ := (Lexeme.scan_mark_iff rfl).1 hscan
    exact .quoted h ho hlt (.refl _)
  | atom ho hlt => exact h.place ho (.atom hlt (Lexeme.scan_atom_iff.1 hscan))

/-- By induction on the tokens: what is read is progress, up to the end of the text. -/
theorem feedAll (h : Progress text r.frames r.forms s) (hq : r.feedAll (tokens s) = .ok q) :
    Progress text q.frames q.forms [] := by
  generalize hts : tokens s = ts at hq
  induction ts generalizing r s with
  | nil =>
    cases hq
    exact h.skips (tokens_eq_nil_iff.1 hts)
  | cons t ts ih =>
    obtain ⟨c, u, hskip, rfl, rfl⟩ := tokens_eq_cons_iff.1 hts
    obtain ⟨r', htakes, hq⟩ := feedAll_cons_eq_ok_iff.1 hq
    have hstart := h.skips (skipBlanks_skips s)
    rw [hskip] at hstart
    exact ih (hstart.takes htakes rfl) rfl hq

end Progress

/-- A text that is read without a frame left consists of its forms. -/
theorem Items.of_feedAll {forms : List Datum} (h : start.feedAll (tokens text) = .ok ⟨[], forms⟩) :
    Items 0 text forms.reverse [] := by
  cases (Progress.start text).feedAll (r := start) h with
  | forms hds => exact hds

end ConsMachine
