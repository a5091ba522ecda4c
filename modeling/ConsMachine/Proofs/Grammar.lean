import ConsMachine.Datum.Reader

/-!
# The grammar of data

Which texts denote which data, said without a reader. Each relation holds
between a text and what is left of it, so that a rule can look at what stands
behind the part it describes: `Skips s t` for blanks and comments, `Atom s d t`
for the words and booleans, and `Denotes depth s d t` for a datum within `depth`
lists and quote marks.

* A word is as many word characters as stand together (`IsRun`). It denotes a
  number if it is a numeral whose value 64 bits hold (`Numeral`), and otherwise
  a symbol if it is a symbol's name.
* `#t` and `#f` denote the booleans if no word character stands behind them.
* A quote mark, blanks and a datum denote the list of `quote` and this datum.
* A list stands between parentheses: data with blanks around them (`Items`),
  and for a list with a tail a lone dot and one more datum.

A datum stands within fewer than `maxNesting` lists and quote marks.

The words of the reader are those of the grammar: `skipBlanks` skips what the
grammar calls blank (`skipBlanks_skips`, `Skips.skipBlanks_eq`), and
`Lexeme.scan` finds its atoms (`Lexeme.scan_atom_iff`).
-/

namespace ConsMachine

/-! ### Blanks -/

/-- A comment ends before a line feed, before a carriage return with a line feed,
    or with the text. -/
inductive EndsComment : List Char → Prop
  | text : EndsComment []
  | lineFeed {s : List Char} : EndsComment ('\n' :: s)
  | carriageReturn {s : List Char} : EndsComment ('\r' :: '\n' :: s)

/-- Only blanks and comments stand in a text before its suffix. -/
inductive Skips : List Char → List Char → Prop
  | refl (s : List Char) : Skips s s
  | blank {c : Char} {s t : List Char} : isBlank c = true → Skips s t → Skips (c :: s) t
  | comment {body s t : List Char} : (∀ c ∈ body, c ≠ '\n' ∧ c ≠ '\r') → EndsComment s →
      Skips s t → Skips (';' :: (body ++ s)) t

/-! ### Words -/

/-- A word at the beginning of a text, and the rest of the text: no word character
    stands behind it. -/
structure IsRun (w rest : List Char) : Prop where
  ne_nil : w ≠ []
  chars : ∀ c ∈ w, isWordChar c = true
  maximal : startsWord rest = false

/-- A word of ASCII digits, with or without a sign, and its value. -/
inductive Numeral : List Char → Int → Prop
  | unsigned {ds : List Char} : ds ≠ [] → (∀ c ∈ ds, c.isDigit = true) →
      Numeral ds (Nat.ofDigitChars 10 ds 0)
  | plus {ds : List Char} : ds ≠ [] → (∀ c ∈ ds, c.isDigit = true) →
      Numeral ('+' :: ds) (Nat.ofDigitChars 10 ds 0)
  | minus {ds : List Char} : ds ≠ [] → (∀ c ∈ ds, c.isDigit = true) →
      Numeral ('-' :: ds) (-Nat.ofDigitChars 10 ds 0)

/-- The data that stand in a text without parentheses, and the rest of the text. -/
inductive Atom : List Char → Datum → List Char → Prop
  | number {w rest : List Char} {n : Int64} : IsRun w rest → Numeral w n.toInt →
      Atom (w ++ rest) (.number n) rest
  | symbol {w rest : List Char} : IsRun w rest → (∀ n : Int64, ¬ Numeral w n.toInt) →
      isSymbolName w = true → Atom (w ++ rest) (.symbol (String.ofList w)) rest
  | true {rest : List Char} : startsWord rest = false →
      Atom ('#' :: 't' :: rest) (.bool true) rest
  | false {rest : List Char} : startsWord rest = false →
      Atom ('#' :: 'f' :: rest) (.bool false) rest

/-! ### Data -/

mutual

/-- A datum at the beginning of a text, within `depth` lists and quote marks, and
    the rest of the text. -/
inductive Denotes : (depth : Nat) → List Char → Datum → List Char → Prop
  | atom {depth : Nat} {s rest : List Char} {d : Datum} : depth < maxNesting →
      Atom s d rest → Denotes depth s d rest
  | quote {depth : Nat} {s t rest : List Char} {d : Datum} : depth < maxNesting →
      Skips s t → Denotes (depth + 1) t d rest → Denotes depth ('\'' :: s) d.quote rest
  | list {depth : Nat} {s rest : List Char} {ds : List Datum} : depth < maxNesting →
      Items (depth + 1) s ds (')' :: rest) → Denotes depth ('(' :: s) (.ofList ds .nil) rest
  | dotted {depth : Nat} {s t u v rest : List Char} {ds : List Datum} {tail : Datum} :
      depth < maxNesting → Items (depth + 1) s ds ('.' :: t) → ds ≠ [] →
      startsWord t = false → Skips t u → Denotes (depth + 1) u tail v →
      Skips v (')' :: rest) → Denotes depth ('(' :: s) (.ofList ds tail) rest

/-- Any number of data with blanks around each, and the rest of the text. -/
inductive Items : (depth : Nat) → List Char → List Datum → List Char → Prop
  | nil {depth : Nat} {s rest : List Char} : Skips s rest → Items depth s [] rest
  | cons {depth : Nat} {s t u rest : List Char} {d : Datum} {ds : List Datum} :
      Skips s t → Denotes depth t d u → Items depth u ds rest → Items depth s (d :: ds) rest

end

/-- A text denotes a datum if it is a text of this datum with blanks around it. -/
def Spells (text : List Char) (d : Datum) : Prop :=
  ∃ s t, Skips text s ∧ Denotes 0 s d t ∧ Skips t []

/-! ### Blanks are skipped -/

variable {s t rest w : List Char} {c : Char} {d : Datum}

theorem dropComment_append {body : List Char} (hbody : ∀ c ∈ body, c ≠ '\n' ∧ c ≠ '\r')
    (hs : EndsComment s) : dropComment (body ++ s) = some s := by
  induction body with
  | nil => cases hs <;> rfl
  | cons c body ih =>
    rw [List.forall_mem_cons] at hbody
    rw [List.cons_append, dropComment]
    · exact ih hbody.2
    · exact hbody.1.1
    · rintro _ rfl
      exact absurd rfl hbody.1.2
    · rintro rfl
      exact absurd rfl hbody.1.2

theorem exists_body_of_dropComment (h : dropComment s = some t) :
    ∃ body, s = body ++ t ∧ (∀ c ∈ body, c ≠ '\n' ∧ c ≠ '\r') ∧ EndsComment t := by
  fun_induction dropComment s with
  | case1 => cases h; exact ⟨[], rfl, by simp, .text⟩
  | case2 s => cases h; exact ⟨[], rfl, by simp, .lineFeed⟩
  | case3 s => cases h; exact ⟨[], rfl, by simp, .carriageReturn⟩
  | case4 => cases h
  | case5 c s hn _ hr ih =>
    obtain ⟨body, rfl, hbody, ht⟩ := ih h
    exact ⟨c :: body, rfl, List.forall_mem_cons.2 ⟨⟨hn, hr⟩, hbody⟩, ht⟩

theorem skipBlanks_cons_of_isBlank (hc : isBlank c = true) (s : List Char) :
    skipBlanks (c :: s) = skipBlanks s := by
  rw [skipBlanks, if_pos hc]

theorem skipBlanks_comment {body : List Char} (hbody : ∀ c ∈ body, c ≠ '\n' ∧ c ≠ '\r')
    (hs : EndsComment s) : skipBlanks (';' :: (body ++ s)) = skipBlanks s := by
  rw [skipBlanks, if_neg (by decide), if_pos rfl]
  split
  · rename_i h
    rw [dropComment_append hbody hs] at h
    cases h
    rfl
  · rename_i h
    rw [dropComment_append hbody hs] at h
    cases h

/-- Nothing is skipped where a character stands that begins no blank. -/
theorem skipBlanks_cons (hc : isBlank c = false) (hs : c ≠ ';') (s : List Char) :
    skipBlanks (c :: s) = c :: s := by
  rw [skipBlanks, if_neg (by simp [hc]), if_neg hs]

/-- Blanks are skipped, wherever one starts among them. -/
theorem Skips.skipBlanks_eq (h : Skips s t) : skipBlanks s = skipBlanks t := by
  induction h with
  | refl => rfl
  | blank hc _ ih => rw [skipBlanks_cons_of_isBlank hc, ih]
  | comment hbody hs _ ih => rw [skipBlanks_comment hbody hs, ih]

/-- What is skipped is blank. -/
theorem skipBlanks_skips (s : List Char) : Skips s (skipBlanks s) := by
  fun_induction skipBlanks s with
  | case1 => exact .refl []
  | case2 c s hc ih => exact .blank hc ih
  | case3 s t ht _ ih =>
    obtain ⟨body, rfl, hbody, hend⟩ := exists_body_of_dropComment ht
    exact .comment hbody hend ih
  | case4 s _ => exact .refl _
  | case5 c s _ _ => exact .refl _

theorem Skips.nil_iff : Skips s [] ↔ skipBlanks s = [] := by
  constructor
  · intro h
    rw [h.skipBlanks_eq, skipBlanks]
  · intro h
    exact h ▸ skipBlanks_skips s

/-- The tokens of a text are those behind its blanks. -/
theorem Skips.tokens_eq (h : Skips s t) : tokens s = tokens t := by
  have hskip := h.skipBlanks_eq
  cases ht : skipBlanks t with
  | nil => rw [tokens_of_nil ht, tokens_of_nil (hskip.trans ht)]
  | cons c r => rw [tokens_of_cons ht, tokens_of_cons (hskip.trans ht)]

/-! ### Words are found -/

theorem digits?_eq_some_iff {ds : List Char} {n : Nat} :
    digits? ds = some n ↔
      ds ≠ [] ∧ (∀ c ∈ ds, c.isDigit = true) ∧ n = Nat.ofDigitChars 10 ds 0 := by
  unfold digits?
  split
  · rename_i h
    simp only [Bool.or_eq_true, List.isEmpty_iff, Bool.not_eq_true', List.all_eq_false] at h
    constructor
    · rintro ⟨⟩
    · rintro ⟨hne, hds, _⟩
      obtain h | ⟨c, hc, hdigit⟩ := h
      · exact absurd h hne
      · exact absurd (hds c hc) hdigit
  · rename_i h
    simp only [Bool.or_eq_true, List.isEmpty_iff, Bool.not_eq_true', not_or,
      Bool.not_eq_false, List.all_eq_true] at h
    rw [Option.some.injEq]
    exact ⟨fun hn => ⟨h.1, h.2, hn.symm⟩, fun hn => hn.2.2.symm⟩

/-- The integer of a word is the value of the numeral. -/
theorem integer?_eq_some_iff {i : Int} : integer? w = some i ↔ Numeral w i := by
  constructor
  · intro h
    unfold integer? at h
    split at h
    all_goals
      obtain ⟨_, hi, rfl⟩ := Option.map_eq_some_iff.1 h
      obtain ⟨n, hn, ⟨⟩⟩ := Option.bind_eq_some_iff.1 hi
      obtain ⟨hne, hds, rfl⟩ := digits?_eq_some_iff.1 hn
    · exact .minus hne hds
    · exact .plus hne hds
    · exact .unsigned hne hds
  · rintro (⟨hne, hds⟩ | ⟨hne, hds⟩ | ⟨hne, hds⟩)
    all_goals have hn := digits?_eq_some_iff.2 ⟨hne, hds, rfl⟩
    · -- No digit is a sign.
      rw [integer?, hn]
      · rfl
      all_goals
        rintro ds rfl
        exact absurd (hds _ List.mem_cons_self) (by decide)
    · rw [integer?, hn]; rfl
    · rw [integer?, hn]; rfl

/-- A word is not both a numeral and the name of a symbol. -/
theorem Numeral.isSymbolName_eq_false {i : Int} (h : Numeral w i) : isSymbolName w = false := by
  have : beginsLikeInteger w = true := by
    cases h with
    | unsigned hne hds =>
      obtain ⟨c, ds, rfl⟩ := List.exists_cons_of_ne_nil hne
      have hc := hds c List.mem_cons_self
      unfold beginsLikeInteger
      split <;> simp_all
    | plus hne hds | minus hne hds =>
      obtain ⟨c, ds, rfl⟩ := List.exists_cons_of_ne_nil hne
      exact hds c List.mem_cons_self
  simp [isSymbolName, this]

/-- What a word says, if it says an atom: a number, or else a symbol. -/
theorem Lexeme.ofWord_eq_atom_iff :
    Lexeme.ofWord w = .atom d ↔
      (∃ n : Int64, Numeral w n.toInt ∧ d = .number n) ∨
        (∀ n : Int64, ¬ Numeral w n.toInt) ∧ isSymbolName w = true ∧
          d = .symbol (String.ofList w) := by
  have hinteger (n : Int64) : Numeral w n.toInt ↔ integer? w = some n.toInt :=
    integer?_eq_some_iff.symm
  simp only [hinteger]
  unfold ofWord
  split
  · rename_i hdot
    subst hdot
    simp [integer?, digits?, isSymbolName]
  · cases hi : integer? w with
    | none =>
      by_cases hname : isSymbolName w = true <;> simp [hname, eq_comm]
    | some i =>
      have hname := (integer?_eq_some_iff.1 hi).isSymbolName_eq_false
      cases hn : Number.ofInt? i with
      | some n =>
        obtain rfl := Number.ofInt?_eq_some_iff.1 hn
        simp [hname, Int64.toInt_inj, eq_comm]
      | none =>
        -- No number has the value of the word.
        have hnum (n : Int64) : i ≠ n.toInt := by
          rintro rfl
          simp at hn
        simp [hn, hname, hnum]

theorem isWordChar_eq_false_of_mem {c : Char}
    (hc : c ∈ ['(', ')', '\'', '#', ';', ' ', '\t', '\r', '\n']) : isWordChar c = false := by
  have hall : ['(', ')', '\'', '#', ';', ' ', '\t', '\r', '\n'].all (!isWordChar ·) = true := by
    decide
  simpa using List.all_eq_true.1 hall c hc

theorem not_blank_of_isWordChar (hc : isWordChar c = true) : isBlank c = false ∧ c ≠ ';' := by
  have hne (d : Char) (hd : isWordChar d = false) : c ≠ d := by
    rintro rfl
    rw [hc] at hd
    cases hd
  refine ⟨?_, hne _ (by decide)⟩
  simp [isBlank, hne ' ' (by decide), hne '\t' (by decide), hne '\r' (by decide),
    hne '\n' (by decide)]

theorem takeWhile_isWordChar {w rest : List Char} (hw : ∀ c ∈ w, isWordChar c = true)
    (hrest : startsWord rest = false) :
    (w ++ rest).takeWhile isWordChar = w ∧ (w ++ rest).dropWhile isWordChar = rest := by
  rw [List.takeWhile_append_of_pos hw, List.dropWhile_append_of_pos hw]
  cases rest with
  | nil => simp
  | cons c rest =>
    replace hrest : isWordChar c = false := hrest
    simp [hrest]

/-- A word is found, whatever it says. -/
theorem Lexeme.scan_word (h : IsRun (c :: w) rest) :
    Lexeme.scan c (w ++ rest) = (ofWord (c :: w), rest) := by
  obtain ⟨hc, hw⟩ := List.forall_mem_cons.1 h.chars
  have hne (d : Char) (hd : d ∈ ['(', ')', '\'', '#', ';', ' ', '\t', '\r', '\n']) : c ≠ d := by
    rintro rfl
    rw [isWordChar_eq_false_of_mem hd] at hc
    cases hc
  obtain ⟨htake, hdrop⟩ := takeWhile_isWordChar hw h.maximal
  unfold scan
  rw [if_neg (hne _ (by simp)), if_neg (hne _ (by simp)), if_neg (hne _ (by simp)),
    if_neg (hne _ (by simp)), if_pos hc, htake, hdrop]

/-- Where a word character stands, there is a word. -/
theorem isRun_takeWhile (hc : isWordChar c = true) (s : List Char) :
    IsRun (c :: s.takeWhile isWordChar) (s.dropWhile isWordChar) where
  ne_nil := by simp
  chars := List.forall_mem_cons.2 ⟨hc, List.all_eq_true.1 List.all_takeWhile⟩
  maximal := by
    cases h : s.dropWhile isWordChar with
    | nil => rfl
    | cons d r =>
      have := List.head?_dropWhile_not isWordChar s
      simpa [h, startsWord] using this

namespace Lexeme

/-- The character of a lexeme that is one character, whatever stands behind it. -/
def mark? : Lexeme → Option Char
  | opening => some '('
  | closing => some ')'
  | quote => some '\''
  | _ => none

/-- What may be found at a character: a mark, a word, a boolean, or junk. -/
inductive Found : Char → List Char → Lexeme → List Char → Prop
  | mark {c : Char} {s : List Char} {l : Lexeme} : l.mark? = some c → Found c s l s
  | word {c : Char} {w rest : List Char} {l : Lexeme} : IsRun (c :: w) rest →
      ofWord (c :: w) = l → Found c (w ++ rest) l rest
  | true {rest : List Char} : startsWord rest = false →
      Found '#' ('t' :: rest) (.atom (.bool true)) rest
  | false {rest : List Char} : startsWord rest = false →
      Found '#' ('f' :: rest) (.atom (.bool false)) rest
  | junk {c : Char} {s : List Char} : Found c s .junk []

theorem found_scan (c : Char) (s : List Char) : Found c s (scan c s).1 (scan c s).2 := by
  unfold scan
  split
  · rename_i hc; exact .mark (by rw [hc]; rfl)
  split
  · rename_i hc; exact .mark (by rw [hc]; rfl)
  split
  · rename_i hc; exact .mark (by rw [hc]; rfl)
  split
  · rename_i hc
    subst hc
    split
    · split
      · exact .junk
      · rename_i hrest; exact .true (by simpa using hrest)
    · split
      · exact .junk
      · rename_i hrest; exact .false (by simpa using hrest)
    · exact .junk
  split
  · rename_i hc
    have hfound := Found.word (isRun_takeWhile hc s) rfl
    rwa [List.takeWhile_append_dropWhile] at hfound
  · exact .junk

theorem found_of_scan {l : Lexeme} (h : scan c s = (l, rest)) : Found c s l rest := by
  have hfound := found_scan c s
  rwa [h] at hfound

theorem mark?_ofWord (w : List Char) : (ofWord w).mark? = none := by
  unfold ofWord
  split
  · rfl
  split
  · split <;> rfl
  · split <;> rfl

/-- A mark is found exactly where its character stands. -/
theorem scan_mark_iff {l : Lexeme} {m : Char} (hl : l.mark? = some m) :
    scan c s = (l, rest) ↔ c = m ∧ rest = s := by
  constructor
  · intro h
    cases found_of_scan h with
    | mark hc => exact ⟨Option.some.inj (hc.symm.trans hl), rfl⟩
    | word _ hl' =>
      rw [← hl', mark?_ofWord] at hl
      cases hl
    | _ => cases hl
  · rintro ⟨rfl, rfl⟩
    cases l <;> cases hl <;> rfl

theorem ofWord_eq_dot_iff : ofWord w = .dot ↔ w = ['.'] := by
  constructor
  · intro h
    unfold ofWord at h
    split at h
    · assumption
    split at h
    · split at h <;> cases h
    · split at h <;> cases h
  · rintro rfl
    rfl

/-- A lone dot is found exactly where one stands. -/
theorem scan_dot_iff : scan c s = (.dot, rest) ↔ c = '.' ∧ rest = s ∧ startsWord s = false := by
  constructor
  · intro h
    cases found_of_scan h with
    | mark hc => cases hc
    | word hrun hdot =>
      obtain ⟨rfl, rfl⟩ := List.cons.inj (ofWord_eq_dot_iff.1 hdot)
      exact ⟨rfl, rfl, hrun.maximal⟩
  · rintro ⟨rfl, rfl, hs⟩
    have hrun : IsRun ['.'] rest := ⟨by simp, List.forall_mem_singleton.2 rfl, hs⟩
    exact scan_word hrun

/-- An atom is found exactly where one stands. -/
theorem scan_atom_iff : scan c s = (.atom d, rest) ↔ Atom (c :: s) d rest := by
  constructor
  · intro h
    cases found_of_scan h with
    | mark hc => cases hc
    | word hrun hword =>
      rw [← List.cons_append]
      obtain ⟨n, hn, rfl⟩ | ⟨hnum, hname, rfl⟩ := ofWord_eq_atom_iff.1 hword
      · exact .number hrun hn
      · exact .symbol hrun hnum hname
    | true hrest => exact .true hrest
    | false hrest => exact .false hrest
  · intro h
    generalize htext : c :: s = text at h
    have hword {w : List Char} (hrun : IsRun w rest) (htext : c :: s = w ++ rest)
        (hd : ofWord w = .atom d) : scan c s = (.atom d, rest) := by
      obtain ⟨c', w, rfl⟩ := List.exists_cons_of_ne_nil hrun.ne_nil
      obtain ⟨rfl, rfl⟩ := List.cons.inj htext
      rw [← hd]
      exact scan_word hrun
    cases h with
    | number hrun hn => exact hword hrun htext (ofWord_eq_atom_iff.2 (.inl ⟨_, hn, rfl⟩))
    | symbol hrun hnum hname =>
      exact hword hrun htext (ofWord_eq_atom_iff.2 (.inr ⟨hnum, hname, rfl⟩))
    | true hrest | false hrest =>
      cases htext
      simp [scan, hrest]

end Lexeme

end ConsMachine
