import ConsMachine.Value.Basic
import ConsMachine.Value.Number

/-!
# Written values

`Value.text` says how a value is written, by recursion: an atom as its own
text, a list as its items between parentheses with single spaces between them,
and a tail other than the empty list behind a dot. Functions, continuations and
the apply marker have a text that cannot be read back.

`Value.print` writes the same text with a list of pending pieces in place of
the recursion, so that values nest as deep as they like (`print_eq_text`).

`Value.detail` is the longer form for diagnostics: it names the type, and shows
what closures and continuations hold.
-/

namespace ConsMachine

namespace Value

/-- The text of an atom. -/
def atomText : Value → String
  | nil => "()"
  | bool b => if b then "#t" else "#f"
  | number n => Number.text n
  | symbol name => name
  | pair .. => ""
  | native f => "#<native:" ++ f.name ++ ">"
  | closure _ arity hasRest _ _ =>
    "#<closure/" ++ arity.repr ++ (if hasRest then "+" else "") ++ ">"
  | continuation .. => "#<continuation>"
  | apply => "#<apply>"

mutual

/-- How a value is written. -/
def text : Value → String
  | pair _ a d => "(" ++ a.text ++ d.restText
  | v => v.atomText

/-- How the rest of a list is written, after its first item. -/
def restText : Value → String
  | nil => ")"
  | pair _ a d => " " ++ a.text ++ d.restText
  | v => " . " ++ v.atomText ++ ")"

end

/-- A piece of text still to be written. -/
inductive Piece where
  /-- A value. -/
  | whole (v : Value)
  /-- A text that is written as it stands. -/
  | literal (s : String)

/-- The pieces of the rest of a list, after its first item. -/
def restPieces (v : Value) : List Piece :=
  v.items.flatMap (fun item => [.literal " ", .whole item]) ++
    ((if v.tail.isNil then [] else [.literal " . ", .whole v.tail]) ++ [.literal ")"])

namespace Piece

/-- What is written for a piece at once, and the pieces to write behind it: those of a
    list, from the first item on. -/
def turn : Piece → String × List Piece
  | whole (pair _ a d) => ("(", whole a :: d.restPieces)
  | whole v => (v.atomText, [])
  | literal s => (s, [])

/-- The text of a piece. -/
def text : Piece → String
  | whole v => v.text
  | literal s => s

/-- The turns that a piece takes at most. -/
def weight : Piece → Nat
  | whole v => 3 * v.size
  | literal _ => 1

/-- The turns that several pieces take at most. -/
def weights : List Piece → Nat
  | [] => 0
  | piece :: pieces => piece.weight + weights pieces

theorem weights_append (pieces pending : List Piece) :
    weights (pieces ++ pending) = weights pieces + weights pending := by
  induction pieces with
  | nil => exact (Nat.zero_add _).symm
  | cons piece pieces ih => rw [List.cons_append, weights, ih, weights, Nat.add_assoc]

end Piece

theorem restPieces_pair (id : Nat) (a d : Value) :
    (pair id a d).restPieces = .literal " " :: .whole a :: d.restPieces := by
  rw [restPieces, items_pair, List.flatMap_cons]
  rfl

theorem weights_restPieces_le (v : Value) : Piece.weights v.restPieces ≤ 3 * v.size + 2 := by
  induction v with
  | pair id a d _ ihd =>
    simp only [restPieces_pair, Piece.weights, Piece.weight, size]
    omega
  | _ => simp [restPieces, items, itemsAfter, tail, isNil, Piece.weights, Piece.weight, size]

/-- The pieces that take the place of one piece weigh less than it. -/
theorem Piece.weights_turn_lt (piece : Piece) : weights piece.turn.2 < piece.weight := by
  cases piece with
  | whole v =>
    cases v with
    | pair id a d =>
      have := weights_restPieces_le d
      simp only [turn, weights, weight, size]
      omega
    | _ => exact Nat.mul_pos (by decide) (size_pos _)
  | literal s => exact Nat.one_pos

/-- Write the pending pieces behind what is already written: turn by turn, the first of
    them gives way to its own pieces. -/
def printAll (written : String) : List Piece → String
  | [] => written
  | piece :: pending => printAll (written ++ piece.turn.1) (piece.turn.2 ++ pending)
termination_by pending => Piece.weights pending
decreasing_by
  have := piece.weights_turn_lt
  simp only [Piece.weights_append, Piece.weights]
  omega

/-- The text of a value, however deep it nests. -/
def print (v : Value) : String :=
  printAll "" [.whole v]

/-- The pieces of the rest of a list have its text. -/
theorem join_restPieces (v : Value) :
    String.join (v.restPieces.map Piece.text) = v.restText := by
  induction v with
  | pair id a d _ ihd =>
    simp [restPieces_pair, ihd, restText, Piece.text, String.append_assoc]
  | _ =>
    simp [restPieces, items, itemsAfter, tail, isNil, restText, Piece.text, text,
      String.append_assoc]

/-- A turn keeps the text of a piece. -/
theorem Piece.text_turn (piece : Piece) :
    piece.turn.1 ++ String.join (piece.turn.2.map text) = piece.text := by
  cases piece with
  | whole v =>
    cases v with
    | pair id a d => simp [turn, text, Value.text, join_restPieces, String.append_assoc]
    | _ => simp [turn, text, Value.text]
  | literal s => simp [turn, text]

/-- The pending pieces are written one after another. -/
theorem printAll_eq (written : String) (pending : List Piece) :
    printAll written pending = written ++ String.join (pending.map Piece.text) := by
  fun_induction printAll written pending with
  | case1 => simp
  | case2 written piece pending ih =>
    rw [ih, List.map_cons, String.join_cons, ← piece.text_turn]
    simp [String.append_assoc]

/-- Printing writes the text of the value. -/
theorem print_eq_text (v : Value) : v.print = v.text := by
  simp [print, printAll_eq, Piece.text]

mutual

/-- The diagnostic form of a value. -/
def detail : Value → String
  | nil => "Nil"
  | bool b => if b then "Bool(true)" else "Bool(false)"
  | number n => "Number(" ++ Number.text n ++ ")"
  | symbol name => "Symbol(" ++ name ++ ")"
  | pair id a d => "Pair(" ++ (pair id a d).print ++ ")"
  | native f => "Native(" ++ f.name ++ ")"
  | closure _ arity hasRest code env =>
    "Closure(arity=" ++ arity.repr ++ ", rest=" ++ (if hasRest then "true" else "false") ++
      ", code=" ++ code.print ++ ", env=[" ++ ", ".intercalate (details env) ++ "])"
  | continuation _ control env =>
    "Continuation(instrs=" ++ control.print ++
      ", env=[" ++ ", ".intercalate (details env) ++ "])"
  | apply => "Apply"

/-- The diagnostic forms of several values. -/
def details : List Value → List String
  | [] => []
  | v :: vs => v.detail :: details vs

end

theorem details_eq_map (vs : List Value) : details vs = vs.map detail := by
  induction vs with
  | nil => rfl
  | cons v vs ih => simp [details, ih]

end Value

/-- The diagnostic form of an environment. -/
def envDetail (env : List Value) : String :=
  "[" ++ ", ".intercalate (env.map Value.detail) ++ "]"

end ConsMachine
