import ConsMachine.Text.Excerpt

/-!
# Reading errors

What the reader reports about a text that it cannot read: the kind of the
failure, a message, and, where the text is known, the character found at the
failure and an excerpt around it.
-/

namespace ConsMachine

/-- The kinds of failure to read a text. -/
inductive ReadError.Kind where
  /-- Something that is no datum. -/
  | invalidSyntax
  /-- The text ends within a datum. -/
  | incomplete
  | tooDeeplyNested
  /-- More text behind a complete datum. -/
  | trailingContent
  deriving DecidableEq

/-- A failure to read a text. -/
structure ReadError where
  kind : ReadError.Kind
  message : String
  /-- The text around the failure. -/
  context : Option String
  /-- The character at the failure; none at the end of the text. -/
  found : Option Char

namespace ReadError

/-- An error without a place. -/
def unplaced (kind : Kind) (message : String) : ReadError :=
  ⟨kind, message, none, none⟩

/-- The error found in `text` where its suffix `rest` begins. -/
def placed (kind : Kind) (message : String) (text rest : List Char) : ReadError :=
  ⟨kind, message, some (excerpt text (byteLength text - byteLength rest)), rest.head?⟩

/-- The error found at a byte offset of `text`, at its end if the offset is
    beyond it; there is none inside a character. -/
def placed? (kind : Kind) (message : String) (text : List Char) (offset : Nat) :
    Option ReadError :=
  (suffixAt? (min offset (byteLength text)) text).map (placed kind message text)

/-- The error as it is shown. -/
def text (e : ReadError) : String :=
  "ParseError: " ++ e.message ++
    (match e.found with
      | some c => "\nFound: " ++ String.singleton c
      | none => "") ++
    (match e.context with
      | some s => "\nContext: " ++ s
      | none => "")

end ReadError

end ConsMachine
