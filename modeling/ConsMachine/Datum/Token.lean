import ConsMachine.Datum.Basic
import ConsMachine.Datum.Word
import ConsMachine.Value.Number

/-!
# Tokens

The first view of a text: blanks and comments are skipped, and what stands
between them is cut into parentheses, quote marks, lone dots, booleans and
words. Each token keeps the text from its first character on, which is where an
error about it is placed.

A comment runs from a semicolon to a line feed, to a carriage return with a line
feed, or to the end of the text. If it runs into a carriage return that stands
alone, it is no comment, and the semicolon is something that cannot be read. So
is a character that begins no token; nothing behind either is looked at.
-/

namespace ConsMachine

/-! ### Blanks -/

/-- The characters between tokens. -/
def isBlank (c : Char) : Bool :=
  c = ' ' || c = '\t' || c = '\r' || c = '\n'

/-- The text from the end of a comment on, given the text behind the semicolon;
    none if a lone carriage return breaks it. -/
def dropComment : List Char → Option (List Char)
  | [] => some []
  | '\n' :: s => some ('\n' :: s)
  | '\r' :: '\n' :: s => some ('\r' :: '\n' :: s)
  | '\r' :: _ => none
  | _ :: s => dropComment s

theorem length_le_of_dropComment {s t : List Char} (h : dropComment s = some t) :
    t.length ≤ s.length := by
  fun_induction dropComment s with
  | case4 => simp at h
  | case5 c s _ _ _ ih => have := ih h; simp; omega
  | _ => simp_all

/-- The text without the blanks and comments at its beginning. -/
def skipBlanks : List Char → List Char
  | [] => []
  | c :: s =>
    if isBlank c then skipBlanks s
    else if c = ';' then
      match _h : dropComment s with
      | some t => skipBlanks t
      | none => c :: s
    else c :: s
termination_by s => s.length
decreasing_by
  · simp
  · have := length_le_of_dropComment _h; simp; omega

theorem length_skipBlanks_le (s : List Char) : (skipBlanks s).length ≤ s.length := by
  fun_induction skipBlanks s with
  | case2 c s _ ih => simp; omega
  | case3 s t h _ ih => have := length_le_of_dropComment h; simp; omega
  | _ => simp

/-! ### Lexemes -/

/-- What a token says. -/
inductive Lexeme where
  | opening
  | closing
  /-- A quote mark. -/
  | quote
  /-- A dot that stands alone. -/
  | dot
  /-- An atom other than the empty list. -/
  | atom (d : Datum)
  /-- An integer that is no number. -/
  | outOfRange
  /-- Something that cannot be read. -/
  | junk

/-- What a word says. -/
def Lexeme.ofWord (w : List Char) : Lexeme :=
  if w = ['.'] then .dot
  else
    match integer? w with
    | some i =>
      match Number.ofInt? i with
      | some n => .atom (.number n)
      | none => .outOfRange
    | none => if isSymbolName w then .atom (.symbol (String.ofList w)) else .junk

/-- Whether a word continues at the beginning of a text. -/
def startsWord : List Char → Bool
  | [] => false
  | c :: _ => isWordChar c

/-- What a text says that begins with the character `c` and goes on with `s`,
    and the text behind that. -/
def Lexeme.scan (c : Char) (s : List Char) : Lexeme × List Char :=
  if c = '(' then (opening, s)
  else if c = ')' then (closing, s)
  else if c = '\'' then (quote, s)
  else if c = '#' then
    match s with
    | 't' :: r => if startsWord r then (junk, []) else (atom (.bool true), r)
    | 'f' :: r => if startsWord r then (junk, []) else (atom (.bool false), r)
    | _ => (junk, [])
  else if isWordChar c then
    (ofWord (c :: s.takeWhile isWordChar), s.dropWhile isWordChar)
  else (junk, [])

theorem Lexeme.length_scan_le (c : Char) (s : List Char) :
    (Lexeme.scan c s).2.length ≤ s.length := by
  have := (s.dropWhile_sublist isWordChar).length_le
  unfold scan
  grind

/-- A token: what it says, and the text from its first character on. -/
structure Token where
  lexeme : Lexeme
  text : List Char

/-- The tokens of a text, behind those already found (latest first). -/
def tokensAfter (found : List Token) (s : List Char) : List Token :=
  match _h : skipBlanks s with
  | [] => found.reverse
  | c :: r => tokensAfter (⟨(Lexeme.scan c r).1, c :: r⟩ :: found) (Lexeme.scan c r).2
termination_by s.length
decreasing_by
  have := length_skipBlanks_le s
  have := Lexeme.length_scan_le c r
  simp_all
  omega

/-- The tokens of a text. -/
def tokens (s : List Char) : List Token :=
  tokensAfter [] s

/-- Nothing but blanks: no more tokens. -/
theorem tokensAfter_of_nil {s : List Char} (h : skipBlanks s = []) (found : List Token) :
    tokensAfter found s = found.reverse := by
  rw [tokensAfter]
  split
  · rfl
  · rename_i h'
    rw [h] at h'
    simp at h'

/-- One token, and those of the text behind it. -/
theorem tokensAfter_of_cons {s r : List Char} {c : Char} (h : skipBlanks s = c :: r)
    (found : List Token) :
    tokensAfter found s =
      tokensAfter (⟨(Lexeme.scan c r).1, c :: r⟩ :: found) (Lexeme.scan c r).2 := by
  rw [tokensAfter]
  split
  · rename_i h'
    rw [h] at h'
    simp at h'
  · rename_i h'
    rw [h] at h'
    cases h'
    rfl

theorem tokensAfter_eq (found : List Token) (s : List Char) :
    tokensAfter found s = found.reverse ++ tokens s := by
  suffices ∀ later, tokensAfter (later ++ found) s = found.reverse ++ tokensAfter later s by
    exact this []
  intro later
  fun_induction tokensAfter later s with
  | case1 later s h => simp [tokensAfter_of_nil h]
  | case2 later s c r h ih => rw [tokensAfter_of_cons h, ← ih, List.cons_append]

theorem tokens_of_nil {s : List Char} (h : skipBlanks s = []) : tokens s = [] :=
  tokensAfter_of_nil h []

theorem tokens_of_cons {s r : List Char} {c : Char} (h : skipBlanks s = c :: r) :
    tokens s = ⟨(Lexeme.scan c r).1, c :: r⟩ :: tokens (Lexeme.scan c r).2 := by
  rw [tokens, tokensAfter_of_cons h, tokensAfter_eq]
  rfl

end ConsMachine
