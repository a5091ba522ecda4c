/-!
# Excerpts

Positions in a text are counted in bytes of its UTF-8 encoding, so not every
number is one: it may point inside a character. `suffixAt?` is the text from a
position on, `dropBytes` the text from the last position that is not beyond a
given number.

The excerpt around a position starts twenty bytes before it, or at the
character that these reach into, and has up to sixty characters. It is one line:
a line feed is written as `\n`, a carriage return is left out. Text that it
leaves out before or behind is marked by `[...]`.
-/

namespace ConsMachine

/-- The length of a text in bytes. -/
def byteLength (text : List Char) : Nat :=
  text.foldr (fun c n => c.utf8Size + n) 0

/-- The text without the characters that lie within its first `n` bytes. -/
def dropBytes : Nat → List Char → List Char
  | _, [] => []
  | n, c :: text => if c.utf8Size ≤ n then dropBytes (n - c.utf8Size) text else c :: text

/-- The text from the byte offset `n` on; none if that is inside a character or
    beyond the end. -/
def suffixAt? : Nat → List Char → Option (List Char)
  | 0, text => some text
  | _ + 1, [] => none
  | n + 1, c :: text => if c.utf8Size ≤ n + 1 then suffixAt? (n + 1 - c.utf8Size) text else none

/-- The bytes shown before the position of an excerpt. -/
def excerptLead : Nat := 20

/-- The most characters an excerpt shows. -/
def excerptWidth : Nat := 60

/-- The sign for text left out. -/
def ellipsis : List Char := ['[', '.', '.', '.', ']']

/-- A character as an excerpt shows it: line feeds are spelt out and carriage
    returns are left out. -/
def onOneLine : Char → List Char
  | '\n' => ['\\', 'n']
  | '\r' => []
  | c => [c]

/-- The excerpt of `text` around the byte offset `offset`. -/
def excerpt (text : List Char) (offset : Nat) : String :=
  let shown := dropBytes (offset - excerptLead) text
  let before := if shown.length < text.length then ellipsis else []
  let after := if (shown.drop excerptWidth).isEmpty then [] else ellipsis
  String.ofList ((before ++ shown.take excerptWidth ++ after).flatMap onOneLine)

@[simp] theorem byteLength_nil : byteLength [] = 0 := rfl

@[simp] theorem byteLength_cons (c : Char) (text : List Char) :
    byteLength (c :: text) = c.utf8Size + byteLength text := rfl

theorem byteLength_append (s t : List Char) :
    byteLength (s ++ t) = byteLength s + byteLength t := by
  induction s with
  | nil => simp
  | cons c s ih => simp [ih, Nat.add_assoc]

/-- The end of a prefix is a position. -/
theorem suffixAt?_byteLength (s t : List Char) : suffixAt? (byteLength s) (s ++ t) = some t := by
  induction s with
  | nil => simp [suffixAt?]
  | cons c s ih =>
    have hpos := c.utf8Size_pos
    obtain ⟨k, hk⟩ : ∃ k, c.utf8Size = k + 1 := ⟨c.utf8Size - 1, by omega⟩
    have : byteLength (c :: s) = (k + byteLength s) + 1 := by simp [hk]; omega
    rw [this, List.cons_append, suffixAt?, if_pos (by omega), hk, ← ih]
    congr 1
    omega

/-- Every position is the end of a prefix. -/
theorem eq_append_of_suffixAt? {n : Nat} {text t : List Char} (h : suffixAt? n text = some t) :
    ∃ s, text = s ++ t ∧ byteLength s = n := by
  fun_induction suffixAt? n text with
  | case1 text => exact ⟨[], by simpa using h, rfl⟩
  | case2 => simp at h
  | case3 n c text hc ih =>
    obtain ⟨s, rfl, hs⟩ := ih h
    refine ⟨c :: s, rfl, ?_⟩
    rw [byteLength_cons]
    omega
  | case4 => simp at h

end ConsMachine
