import ConsMachine.Text.Alphanumeric

/-!
# Words

A *word* is a run of symbol characters: letters and digits of any script, and
the signs `+-*/<>=!?_$%&:.^~@`. A word of ASCII digits, with or without a sign,
is an integer. A word is the name of a symbol unless it begins like an integer,
with a digit or with a sign before a digit, or is the single dot.
-/

namespace ConsMachine

/-- The signs allowed in words. -/
def wordSigns : List Char :=
  ['+', '-', '*', '/', '<', '>', '=', '!', '?', '_', '$', '%', '&', ':', '.', '^', '~', '@']

/-- The characters of words. -/
def isWordChar (c : Char) : Bool :=
  isAlphanumeric c || wordSigns.contains c

/-- The value of a run of ASCII digits. -/
def digits? (cs : List Char) : Option Nat :=
  if cs.isEmpty || !cs.all Char.isDigit then none else some (Nat.ofDigitChars 10 cs 0)

/-- The value of a run of ASCII digits, with or without a sign. -/
def integer? : List Char → Option Int
  | '-' :: cs => (digits? cs).map fun n => -n
  | '+' :: cs => (digits? cs).map fun n => n
  | cs => (digits? cs).map fun n => n

/-- Whether a word begins like an integer. -/
def beginsLikeInteger : List Char → Bool
  | '-' :: c :: _ => c.isDigit
  | '+' :: c :: _ => c.isDigit
  | c :: _ => c.isDigit
  | [] => false

/-- Whether a run of characters is the name of a symbol, given that all of them
    are word characters. -/
def isSymbolName (cs : List Char) : Bool :=
  !cs.isEmpty && !beginsLikeInteger cs && cs != ['.']

end ConsMachine
