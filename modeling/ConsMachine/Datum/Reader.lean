import ConsMachine.Datum.Token
import ConsMachine.Datum.ReadError

/-!
# Reading

The reader goes over the tokens of a text once, from left to right, and keeps
what is begun and not yet complete as a list of *frames*, innermost first: a
quote mark that waits for its datum, a list with the items read so far, a list
that waits for the tail behind its dot, and one that waits for the parenthesis
behind that tail. A datum that is complete goes to the innermost frame
(`Reader.place`), which it may complete in turn; without a frame it is one of
the forms of the text.

Every frame but the last kind is a level of nesting, and there are at most
`maxNesting` levels: a token that would begin a datum below them is refused,
whatever it is.

The reader stops at the first token it cannot take. A `Fault` is the cause,
together with the text from the failure on.
-/

namespace ConsMachine

/-- The levels at which a datum can stand: 0 for a form of the text, and one
    more within each list or quote mark. -/
def maxNesting : Nat := 64

/-! ### Faults -/

/-- Why a text cannot be read. -/
inductive Fault.Cause where
  /-- A datum below the last level. -/
  | tooDeep
  | unexpectedEnd
  /-- An integer that is no number. -/
  | outOfRange
  /-- A dot without an item before it, or no parenthesis behind the tail. -/
  | malformedPair
  /-- Something other than a datum. -/
  | invalid
  /-- More text behind the only form. -/
  | trailing
  deriving DecidableEq

/-- Why a text cannot be read, and the text from there on. -/
structure Fault where
  cause : Fault.Cause
  rest : List Char

namespace Fault

/-- The kind of error a fault is reported as. -/
def Cause.kind : Cause → ReadError.Kind
  | tooDeep => .tooDeeplyNested
  | unexpectedEnd => .incomplete
  | outOfRange => .invalidSyntax
  | malformedPair => .invalidSyntax
  | invalid => .invalidSyntax
  | trailing => .trailingContent

/-- The message of a fault in `text`. -/
def message (text : List Char) (f : Fault) : String :=
  let position := (byteLength text - byteLength f.rest).repr
  match f.cause with
  | .tooDeep => "Expression too deeply nested (max depth: " ++ maxNesting.repr ++ ")"
  | .unexpectedEnd => "Unexpected end of input"
  | .outOfRange => "Integer literal out of range at position " ++ position
  | .malformedPair => "Malformed dotted pair at position " ++ position
  | .invalid => "Invalid syntax near '" ++ String.ofList (f.rest.take 10) ++ "'"
  | .trailing => "Unexpected remaining input"

/-- The report of a fault in `text`. -/
def report (text : List Char) (f : Fault) : ReadError :=
  .placed f.cause.kind (f.message text) text f.rest

end Fault

/-! ### Frames -/

/-- Something begun and not yet complete. Items are kept latest first. -/
inductive Frame where
  /-- A quote mark, before its datum. -/
  | quoted
  /-- A list, before its next item, its dot or its end. -/
  | list (items : List Datum)
  /-- A list behind its dot, before the tail. -/
  | dotted (items : List Datum)
  /-- A list behind its tail, before the closing parenthesis. -/
  | ended (items : List Datum) (tail : Datum)

/-- What has been read: the frames in progress, innermost first, and the forms
    that are complete, latest first. -/
structure Reader where
  frames : List Frame
  forms : List Datum

namespace Reader

/-- Nothing is read yet. -/
def start : Reader := ⟨[], []⟩

/-- Give a complete datum to the innermost frame. A list behind its tail takes no
    more: no datum is begun there. -/
def place (d : Datum) (forms : List Datum) : List Frame → Reader
  | [] => ⟨[], d :: forms⟩
  | .quoted :: frames => place d.quote forms frames
  | .list items :: frames => ⟨.list (d :: items) :: frames, forms⟩
  | .dotted items :: frames => ⟨.ended items d :: frames, forms⟩
  | .ended items tail :: frames => ⟨.ended items tail :: frames, forms⟩

/-- Begin a datum with the token `t`, within `frames`. -/
def begin (frames : List Frame) (forms : List Datum) (t : Token) : Except Fault Reader :=
  if maxNesting ≤ frames.length then .error ⟨.tooDeep, t.text⟩
  else
    match t.lexeme with
    | .opening => .ok ⟨.list [] :: frames, forms⟩
    | .quote => .ok ⟨.quoted :: frames, forms⟩
    | .atom d => .ok (place d forms frames)
    | .outOfRange => .error ⟨.outOfRange, t.text⟩
    | .closing | .dot | .junk => .error ⟨.invalid, t.text⟩

/-- Read one token. -/
def feed (r : Reader) (t : Token) : Except Fault Reader :=
  match r.frames, t.lexeme with
  | .list items :: frames, .closing => .ok (place (.ofList items.reverse .nil) r.forms frames)
  | .list [] :: _, .dot => .error ⟨.malformedPair, t.text⟩
  | .list (d :: items) :: frames, .dot => .ok ⟨.dotted (d :: items) :: frames, r.forms⟩
  | .ended items tail :: frames, .closing =>
    .ok (place (.ofList items.reverse tail) r.forms frames)
  | .ended _ _ :: _, _ => .error ⟨.malformedPair, t.text⟩
  | frames, _ => begin frames r.forms t

/-- Read several tokens. -/
def feedAll (r : Reader) : List Token → Except Fault Reader
  | [] => .ok r
  | t :: ts => do (← r.feed t).feedAll ts

@[simp] theorem feedAll_nil (r : Reader) : r.feedAll [] = .ok r := rfl

/-- Tokens are read one after another. -/
theorem feedAll_append (r : Reader) (ts us : List Token) :
    r.feedAll (ts ++ us) = (r.feedAll ts >>= fun r' => r'.feedAll us) := by
  induction ts generalizing r with
  | nil => rfl
  | cons t ts ih =>
    simp only [List.cons_append, feedAll]
    cases r.feed t with
    | error f => rfl
    | ok r' => exact ih r'

/-- The fault of a text that ends here. A quote mark or a dot is followed by a
    datum, which may be too deep even where the text ends. -/
def endFault (r : Reader) : Fault :=
  match r.frames with
  | .quoted :: _ | .dotted _ :: _ =>
    ⟨if maxNesting ≤ r.frames.length then .tooDeep else .unexpectedEnd, []⟩
  | _ => ⟨.unexpectedEnd, []⟩

/-- The forms of a text that ends here, in their order. -/
def finish (r : Reader) : Except Fault (List Datum) :=
  match r.frames with
  | [] => .ok r.forms.reverse
  | _ => .error r.endFault

/-- Read the first form, and nothing but blanks behind it. -/
def readForm (r : Reader) : List Token → Except Fault Datum
  | [] =>
    match r.forms with
    | d :: _ => .ok d
    | [] => .error r.endFault
  | t :: ts =>
    match r.forms with
    | _ :: _ => .error ⟨.trailing, t.text⟩
    | [] => do (← r.feed t).readForm ts

end Reader

namespace Datum

/-- The datum of a text, with blanks and comments around it. -/
def read (text : String) : Except ReadError Datum :=
  (Reader.start.readForm (tokens text.toList)).mapError (Fault.report text.toList)

/-- The data of a text, one behind the other. -/
def readAll (text : String) : Except ReadError (List Datum) :=
  (do (← Reader.start.feedAll (tokens text.toList)).finish).mapError (Fault.report text.toList)

end Datum

end ConsMachine
