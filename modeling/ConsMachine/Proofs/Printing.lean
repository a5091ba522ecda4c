import ConsMachine.Value.Text

/-!
# Printing with a list of pieces

`Value.print` keeps one list of pieces for the whole value: a list that is met on the way
gives way to its opening parenthesis and the pieces of its items, of the separators between
them, of its tail and of its closing parenthesis, in front of what was pending before.

* A turn keeps the whole text, what is written and what the pending pieces stand for
  (`Turns.text_eq`).
* A turn makes the pending pieces lighter, however many it adds (`Turns.weight_le`), so the
  list is empty after at most three turns for each pair and each atom (`exists_turns`).

What is written then is the text by recursion on the items of the lists
(`Value.print_is_recursive`).
-/

namespace ConsMachine

namespace Value

/-! ### Turns -/

/-- Printing in progress, what is written and the pieces pending, before and after `n`
    turns. -/
inductive Turns : Nat → String × List Piece → String × List Piece → Prop
  | refl (written : String) (pending : List Piece) : Turns 0 (written, pending) (written, pending)
  | turn {n : Nat} {written : String} {piece : Piece} {pending : List Piece}
      {reached : String × List Piece} :
      Turns n (written ++ piece.turn.1, piece.turn.2 ++ pending) reached →
      Turns (n + 1) (written, piece :: pending) reached

/-- The text that printing in progress comes to. -/
def pendingText (p : String × List Piece) : String :=
  p.1 ++ String.join (p.2.map Piece.text)

variable {n : Nat} {p q : String × List Piece}

/-- The first piece gives way to pieces of the same text. -/
theorem pendingText_turn (written : String) (piece : Piece) (pending : List Piece) :
    pendingText (written ++ piece.turn.1, piece.turn.2 ++ pending) =
      pendingText (written, piece :: pending) := by
  simp [pendingText, ← piece.text_turn, String.append_assoc]

/-- The first piece gives way to lighter ones. -/
theorem weights_turn (piece : Piece) (pending : List Piece) :
    Piece.weights (piece.turn.2 ++ pending) < Piece.weights (piece :: pending) := by
  have := piece.weights_turn_lt
  rw [Piece.weights_append, Piece.weights]
  omega

theorem Turns.text_eq (h : Turns n p q) : pendingText q = pendingText p := by
  induction h with
  | refl => rfl
  | turn _ ih => rw [ih, pendingText_turn]

theorem Turns.weight_le (h : Turns n p q) : n + Piece.weights q.2 ≤ Piece.weights p.2 := by
  induction h with
  | refl => exact Nat.le_of_eq (Nat.zero_add _)
  | @turn n written piece pending _ _ ih =>
    have := weights_turn piece pending
    dsimp only at ih ⊢
    omega

/-- The pieces give way to each other until none is left. -/
theorem exists_turns (written : String) (pending : List Piece) :
    ∃ n, Turns n (written, pending) (printAll written pending, []) := by
  fun_induction printAll written pending with
  | case1 written => exact ⟨0, .refl written []⟩
  | case2 written piece pending ih =>
    obtain ⟨n, hn⟩ := ih
    exact ⟨n + 1, .turn hn⟩

/-! ### The text of a list -/

/-- The text of a tail: none of the empty list. -/
def tailText (v : Value) : String :=
  if v.isNil then "" else " . " ++ v.text

/-- The items of a list stand with single spaces between them, before its tail. -/
theorem text_append_restText (a d : Value) :
    a.text ++ d.restText =
      " ".intercalate ((a :: d.items).map text) ++ d.tail.tailText ++ ")" := by
  induction d generalizing a with
  | pair id b d _ ihd =>
    have hrest : (pair id b d).restText = " " ++ (b.text ++ d.restText) := by
      rw [restText, String.append_assoc]
    rw [hrest, ihd b, items_pair, tail_pair]
    simp [String.append_assoc]
  | nil => simp [restText, items, itemsAfter, tail, tailText, isNil]
  | _ =>
    simp [restText, items, itemsAfter, tail, tailText, isNil, text, String.append_assoc]

theorem text_pair_eq (id : Nat) (a d : Value) :
    (pair id a d).text =
      "(" ++ " ".intercalate ((pair id a d).items.map text) ++
        (pair id a d).tail.tailText ++ ")" := by
  rw [text, String.append_assoc, text_append_restText, items_pair, tail_pair]
  simp [String.append_assoc]

/-- Printing with a list of pieces is printing by recursion: the pieces give way to each
    other at most three times as often as there are pairs and atoms in the value, and what
    is written then is its text. That of a list is an opening parenthesis, the texts of its
    items with single spaces between them, the text of its tail behind a dot unless this is
    the empty list, and a closing parenthesis; that of an atom is its own. -/
theorem print_is_recursive :
    (∀ v : Value, ∃ n ≤ 3 * v.size, Turns n ("", [.whole v]) (v.print, [])) ∧
      (∀ v : Value, v.print = v.text) ∧
      ∀ v : Value, v.text =
        if v.isPair then
          "(" ++ " ".intercalate (v.items.map text) ++
            (if v.tail.isNil then "" else " . " ++ v.tail.text) ++ ")"
        else v.atomText := by
  refine ⟨fun v => ?_, print_eq_text, fun v => ?_⟩
  · obtain ⟨n, hn⟩ := exists_turns "" [.whole v]
    have hle := hn.weight_le
    exact ⟨n, by simpa [Piece.weights, Piece.weight] using hle, hn⟩
  · cases v with
    | pair id a d => exact text_pair_eq id a d
    | _ => rfl

/-- Lists in a list, one of them dotted, before a tail that is no list. -/
example :
    let v : Value := .pair 4 (.pair 1 (.number 1) (.pair 0 (.number 2) .nil))
      (.pair 3 (.pair 2 (.symbol "a") (.symbol "b")) (.closure 5 1 true .nil []))
    v.text = "((1 2) (a . b) . #<closure/1+>)" := by
  rfl

end Value

end ConsMachine
