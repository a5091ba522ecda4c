import ConsMachine.Datum.ReadError

/-!
# What an excerpt shows

An error is placed at a byte offset of a text, and its excerpt shows the text around the
character there. Offsets are counted in bytes and the excerpt in characters, so that three
facts about the two have to come together.

* An offset up to the end of the text is a position or lies inside a character
  (`suffixAt?_eq_none_iff`).
* The excerpt starts at the last position that is not less than twenty bytes before the
  offset (`exists_eq_append_dropBytes`): no more than twenty-three bytes before it.
* So many bytes are no more characters than an excerpt shows, and the character at the
  offset is among those it shows (`Shows.of_position`).

`ReadError.shows_failure` puts them together.
-/

namespace ConsMachine

variable {s t text left right : List Char} {c : Char} {n : Nat}

/-! ### Positions -/

/-- The length in bytes is that of the text in UTF-8. -/
theorem byteLength_toList (text : String) : byteLength text.toList = text.utf8ByteSize := by
  obtain ⟨l, rfl⟩ := text.exists_eq_ofList
  rw [String.toList_ofList]
  induction l with
  | nil => rfl
  | cons c l ih =>
    rw [byteLength_cons, ih, String.ofList_cons, String.utf8ByteSize_append,
      String.utf8ByteSize_singleton]

/-- The positions of a text are the lengths of what it begins with. -/
theorem isValid_iff {text : String} :
    (⟨n⟩ : String.Pos.Raw).IsValid text ↔ ∃ s t, text.toList = s ++ t ∧ byteLength s = n := by
  rw [String.Pos.Raw.isValid_iff_exists_append]
  constructor
  · rintro ⟨s, t, rfl, hn⟩
    refine ⟨s.toList, t.toList, String.toList_append, ?_⟩
    rw [byteLength_toList, ← String.byteIdx_rawEndPos, ← hn]
  · rintro ⟨s, t, htext, rfl⟩
    refine ⟨.ofList s, .ofList t, ?_, ?_⟩
    · rw [← String.ofList_append, ← htext, String.ofList_toList]
    · rw [String.Pos.Raw.ext_iff, String.byteIdx_rawEndPos, ← byteLength_toList,
        String.toList_ofList]

/-- A byte offset inside a character of a text: behind its first byte, and not behind its
    last. -/
def IsInside (text : List Char) (n : Nat) : Prop :=
  ∃ left c right, text = left ++ c :: right ∧ byteLength left < n ∧
    n < byteLength left + c.utf8Size

/-- A position is not behind a character, or it is behind all of it. -/
theorem byteLength_le_or_le (h : s ++ t = left ++ c :: right) :
    byteLength s ≤ byteLength left ∨ byteLength left + c.utf8Size ≤ byteLength s := by
  rcases List.append_eq_append_iff.1 h with ⟨u, rfl, _⟩ | ⟨u, rfl, hu⟩
  · exact .inl (by rw [byteLength_append]; omega)
  · cases u with
    | nil => exact .inl (by simp)
    | cons d u =>
      obtain ⟨rfl, _⟩ := List.cons.inj hu
      exact .inr (by rw [byteLength_append, byteLength_cons]; omega)

theorem IsInside.cons (h : IsInside text n) (c : Char) :
    IsInside (c :: text) (c.utf8Size + n) := by
  obtain ⟨left, d, right, rfl, hlt, hgt⟩ := h
  refine ⟨c :: left, d, right, rfl, ?_, ?_⟩ <;> rw [byteLength_cons] <;> omega

/-- No text begins at an offset exactly if the offset is inside a character. -/
theorem suffixAt?_eq_none_iff (hn : n ≤ byteLength text) :
    suffixAt? n text = none ↔ IsInside text n := by
  constructor
  · intro h
    fun_induction suffixAt? n text with
    | case1 => cases h
    | case2 n => exact absurd hn (Nat.not_succ_le_zero n)
    | case3 n c text hc ih =>
      rw [byteLength_cons] at hn
      have hinside := (ih (by omega) h).cons c
      rwa [Nat.add_sub_cancel' hc] at hinside
    | case4 n c text hc => exact ⟨[], c, text, rfl, n.succ_pos, by simpa using hc⟩
  · rintro ⟨left, c, right, rfl, hlt, hgt⟩
    rw [Option.eq_none_iff_forall_ne_some]
    intro t ht
    obtain ⟨s, hs, rfl⟩ := eq_append_of_suffixAt? ht
    rcases byteLength_le_or_le hs.symm with h | h <;> omega

/-! ### The start of an excerpt -/

/-- What is dropped is at most `n` bytes long, and would be longer with one more
    character. -/
theorem exists_eq_append_dropBytes (n : Nat) (text : List Char) :
    ∃ left, text = left ++ dropBytes n text ∧ byteLength left ≤ n ∧
      ∀ c right, dropBytes n text = c :: right → n < byteLength left + c.utf8Size := by
  fun_induction dropBytes n text with
  | case1 n => exact ⟨[], rfl, n.zero_le, by rintro _ _ ⟨⟩⟩
  | case2 n c text hc ih =>
    obtain ⟨left, htext, hle, hlast⟩ := ih
    refine ⟨c :: left, congrArg (c :: ·) htext, ?_, fun d right hd => ?_⟩
    · rw [byteLength_cons]
      omega
    · have := hlast d right hd
      rw [byteLength_cons]
      omega
  | case3 n c text hc =>
    refine ⟨[], rfl, n.zero_le, ?_⟩
    rintro _ _ ⟨⟩
    simpa using hc

theorem length_le_byteLength (s : List Char) : s.length ≤ byteLength s := by
  induction s with
  | nil => exact Nat.le_refl 0
  | cons c s ih =>
    have := c.utf8Size_pos
    rw [List.length_cons, byteLength_cons]
    omega

/-- What an excerpt around the byte offset `o` shows of a text, and what it leaves out
    before and behind: it starts at the last position that is not less than twenty bytes
    before `o`, and shows up to sixty characters from there on. -/
structure Shows (text : String) (o : Nat) (left shown right : List Char) : Prop where
  parts : text.toList = left ++ (shown ++ right)
  start_le : byteLength left ≤ o - 20
  start_last : ∀ n ≤ o - 20, (⟨n⟩ : String.Pos.Raw).IsValid text → n ≤ byteLength left
  width : shown = (shown ++ right).take 60

namespace Shows

variable {text : String} {o : Nat} {left shown right before after : List Char}

theorem exists_parts (text : String) (o : Nat) :
    ∃ left, text.toList = left ++ dropBytes (o - excerptLead) text.toList ∧
      Shows text o left ((dropBytes (o - excerptLead) text.toList).take excerptWidth)
        ((dropBytes (o - excerptLead) text.toList).drop excerptWidth) := by
  obtain ⟨left, htext, hle, hlast⟩ := exists_eq_append_dropBytes (o - excerptLead) text.toList
  refine ⟨left, htext, ?_, hle, fun n hn hvalid => ?_, ?_⟩
  · rwa [List.take_append_drop]
  · obtain ⟨s, t, hs, rfl⟩ := isValid_iff.1 hvalid
    cases hdrop : dropBytes (o - excerptLead) text.toList with
    | nil =>
      -- Nothing is left behind the start, so no position is.
      rw [hdrop, List.append_nil] at htext
      rw [← htext, hs, byteLength_append]
      omega
    | cons c rest =>
      rw [hdrop] at htext
      have hn : byteLength s ≤ o - excerptLead := hn
      have := hlast c rest hdrop
      rcases byteLength_le_or_le (hs.symm.trans htext) with h | h <;> omega
  · rw [List.take_append_drop]
    rfl

/-- The start is fewer than four bytes before the position where it would be if every
    offset was one. -/
theorem lt_start (h : Shows text o left shown right) (hne : shown ++ right ≠ []) :
    o - 20 < byteLength left + 4 := by
  obtain ⟨c, rest, hrest⟩ := List.exists_cons_of_ne_nil hne
  have hvalid : (⟨byteLength (left ++ [c])⟩ : String.Pos.Raw).IsValid text :=
    isValid_iff.2 ⟨left ++ [c], rest, by rw [h.parts, hrest, List.append_cons], rfl⟩
  have hlength : byteLength (left ++ [c]) = byteLength left + c.utf8Size := by
    rw [byteLength_append, byteLength_cons, byteLength_nil, Nat.add_zero]
  have hsize := c.utf8Size_le_four
  have hpos := c.utf8Size_pos
  refine Classical.byContradiction fun hlt => ?_
  have := h.start_last _ (by omega) hvalid
  omega

/-- The character at a position is shown there: it is so few bytes behind the start that
    there is room for it. -/
theorem of_position (h : Shows text o left shown right)
    (htext : text.toList = before ++ c :: after) (ho : byteLength before = o) :
    ∃ s t, shown = s ++ c :: t ∧ before = left ++ s := by
  have hparts := h.parts
  rw [htext] at hparts
  have hstart := h.start_le
  -- The start is not behind the position, as it is no character further on.
  obtain ⟨s, rfl, hs⟩ : ∃ s, before = left ++ s ∧ shown ++ right = s ++ c :: after := by
    rcases List.append_eq_append_iff.1 hparts with ⟨u, rfl, hu⟩ | h
    · cases u with
      | nil => exact ⟨[], by simp, hu.symm⟩
      | cons d u =>
        have := d.utf8Size_pos
        rw [byteLength_append, byteLength_cons] at hstart
        omega
    · exact h
  have hlt := h.lt_start (by simp [hs])
  have hlength : s.length < 60 := by
    have := length_le_byteLength s
    rw [byteLength_append] at ho
    omega
  obtain ⟨k, hk⟩ : ∃ k, 60 - s.length = k + 1 := ⟨59 - s.length, by omega⟩
  refine ⟨s, after.take k, ?_, rfl⟩
  rw [h.width, hs, List.take_append, List.take_of_length_le (by omega), hk, List.take_succ_cons]

end Shows

/-! ### The excerpt -/

/-- A character on one line: a line feed is spelt out and a carriage return left out. -/
theorem onOneLine_eq (c : Char) :
    onOneLine c = if c = '\n' then ['\\', 'n'] else if c = '\r' then [] else [c] := by
  unfold onOneLine
  split <;> simp_all

theorem not_mem_flatMap_onOneLine (s : List Char) :
    '\n' ∉ s.flatMap onOneLine ∧ '\r' ∉ s.flatMap onOneLine := by
  simp only [List.mem_flatMap, onOneLine_eq]
  grind

variable {kind : ReadError.Kind} {message : String} {text : String} {offset : Nat}

theorem ReadError.placed?_eq_none_iff :
    placed? kind message text.toList offset = none ↔
      IsInside text.toList (min offset text.utf8ByteSize) := by
  rw [placed?, Option.map_eq_none_iff, byteLength_toList]
  exact suffixAt?_eq_none_iff (byteLength_toList text ▸ Nat.min_le_right _ _)

/-- An error that is placed is the one at the position of the offset. -/
theorem ReadError.placed?_eq_some_iff {e : ReadError} :
    placed? kind message text.toList offset = some e ↔
      ∃ before rest, text.toList = before ++ rest ∧
        byteLength before = min offset text.utf8ByteSize ∧
        placed kind message text.toList rest = e := by
  rw [placed?, Option.map_eq_some_iff, byteLength_toList]
  constructor
  · rintro ⟨rest, hrest, he⟩
    obtain ⟨before, htext, hbefore⟩ := eq_append_of_suffixAt? hrest
    exact ⟨before, rest, htext, hbefore, he⟩
  · rintro ⟨before, rest, htext, hbefore, he⟩
    exact ⟨rest, by rw [← hbefore, htext, suffixAt?_byteLength], he⟩

/-- The excerpt consists of what is shown, with a sign for what is left out on either
    side, and is one line. -/
theorem exists_shows_excerpt (text : String) (o : Nat) :
    ∃ left shown right context, Shows text o left shown right ∧
      excerpt text.toList o = String.ofList context ∧
      context = ((if 0 < byteLength left then ellipsis else []) ++ shown ++
        (if right = [] then [] else ellipsis)).flatMap onOneLine ∧
      '\n' ∉ context ∧ '\r' ∉ context := by
  obtain ⟨left, htext, hshows⟩ := Shows.exists_parts text o
  refine ⟨left, _, _, _, hshows, ?_, rfl, not_mem_flatMap_onOneLine _⟩
  have hbefore : (dropBytes (o - excerptLead) text.toList).length < text.toList.length ↔
      0 < byteLength left := by
    have hlength := congrArg List.length htext
    rw [List.length_append] at hlength
    cases left with
    | nil => simp [hlength]
    | cons c left =>
      have := c.utf8Size_pos
      rw [List.length_cons] at hlength
      rw [byteLength_cons]
      omega
  simp only [excerpt, hbefore, List.isEmpty_iff]

/-- The excerpt of an error always shows the failure. An error is placed at the byte offset
    `o`, which is the end of the text if the offset given is beyond it, and there is none
    exactly if `o` is inside a character. Otherwise

    * the excerpt starts at the last position that is not less than twenty bytes before `o`,
      or else at the first of the text, and has up to sixty characters;
    * the character at `o`, if there is one, is the one found, and is in the excerpt;
    * the context is the excerpt with `[...]` before it exactly if it does not start at the
      first position, and behind it exactly if there is text behind it, with every line feed
      spelt out and every carriage return left out, so that it is one line. -/
theorem ReadError.shows_failure (kind : Kind) (message text : String) (offset : Nat) :
    let o := min offset text.utf8ByteSize
    (placed? kind message text.toList offset = none ↔ IsInside text.toList o) ∧
      ∀ e, placed? kind message text.toList offset = some e →
        ∃ left shown right before rest context,
          Shows text o left shown right ∧
          text.toList = before ++ rest ∧ byteLength before = o ∧
          (∀ c after, rest = c :: after → ∃ s t, shown = s ++ c :: t ∧ before = left ++ s) ∧
          e = ⟨kind, message, some (String.ofList context), rest.head?⟩ ∧
          context = ((if 0 < byteLength left then "[...]".toList else []) ++ shown ++
            (if right = [] then [] else "[...]".toList)).flatMap
              (fun c => if c = '\n' then ['\\', 'n'] else if c = '\r' then [] else [c]) ∧
          '\n' ∉ context ∧ '\r' ∉ context := by
  intro o
  refine ⟨placed?_eq_none_iff, fun e he => ?_⟩
  obtain ⟨before, rest, htext, ho, rfl⟩ := placed?_eq_some_iff.1 he
  obtain ⟨left, shown, right, context, hshows, hexcerpt, hcontext, hline⟩ :=
    exists_shows_excerpt text o
  have hoffset : byteLength text.toList - byteLength rest = o := by
    rw [htext, byteLength_append, ho, Nat.add_sub_cancel]
  refine ⟨left, shown, right, before, rest, context, hshows, htext, ho, ?_, ?_, ?_, hline⟩
  · rintro c after rfl
    exact hshows.of_position htext ho
  · rw [placed, hoffset, hexcerpt]
  · rw [hcontext, funext onOneLine_eq]
    rfl

/-- Two offsets in a text with characters of two bytes: the start falls into one of them and
    moves back to its first byte, and an offset inside the other is no place for an error. -/
theorem ReadError.shows_failure_greek :
    let text := "αaaaaaaaaaaaaaaaaaaaλ\n"
    placed? .invalidSyntax "m" text.toList 22 = none ∧
      ∃ e left shown right, placed? .invalidSyntax "m" text.toList 21 = some e ∧
        e.found = some 'λ' ∧ Shows text 21 left shown right ∧ left = [] ∧ 'λ' ∈ shown := by
  intro text
  let before := 'α' :: List.replicate 19 'a'
  have htext : text.toList = before ++ ['λ', '\n'] := by decide +kernel
  have hsize : text.utf8ByteSize = 24 := by decide +kernel
  constructor
  · obtain ⟨hnone, _⟩ := ReadError.shows_failure .invalidSyntax "m" text 22
    rw [hsize] at hnone
    exact hnone.2 ⟨before, 'λ', ['\n'], htext, by decide, by decide⟩
  · obtain ⟨_, hsome⟩ := ReadError.shows_failure .invalidSyntax "m" text 21
    have he : placed? .invalidSyntax "m" text.toList 21 =
        some (placed .invalidSyntax "m" text.toList ['λ', '\n']) :=
      placed?_eq_some_iff.2 ⟨before, _, htext, by rw [hsize]; decide, rfl⟩
    obtain ⟨left, shown, right, _, rest, _, hshows, _, _, hmem, hfound, _⟩ := hsome _ he
    replace hfound : some 'λ' = rest.head? := congrArg ReadError.found hfound
    obtain ⟨after, hrest⟩ := List.head?_eq_some_iff.1 hfound.symm
    obtain ⟨s, t, hs, _⟩ := hmem _ _ hrest
    rw [hsize] at hshows
    refine ⟨_, left, shown, right, he, rfl, hshows, ?_, by simp [hs]⟩
    -- The first character is longer than the text before the start.
    cases left with
    | nil => rfl
    | cons c left =>
      have hparts := hshows.parts
      have hle := hshows.start_le
      rw [htext] at hparts
      obtain ⟨rfl, _⟩ := List.cons.inj hparts
      rw [byteLength_cons, show 'α'.utf8Size = 2 by decide] at hle
      omega

end ConsMachine
