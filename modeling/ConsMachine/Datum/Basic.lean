import ConsMachine.Value.Basic

/-!
# Data

A *datum* is what a text denotes: an atom that can be written down, or a pair
of data. Unlike a value it has no identity; loading it (`Datum.load`) makes a
value of it, with a fresh identity for each of its pairs.
-/

namespace ConsMachine

/-- What a text denotes. -/
inductive Datum where
  | nil
  | bool (b : Bool)
  | number (n : Int64)
  | symbol (name : String)
  | pair (car cdr : Datum)
  deriving DecidableEq

namespace Datum

/-- The list of `items` that ends in `tail`. -/
def ofList (items : List Datum) (tail : Datum) : Datum :=
  items.foldr pair tail

/-- The datum that `'d` abbreviates. -/
def quote (d : Datum) : Datum :=
  ofList [symbol "quote", d] nil

/-- Load a datum as the rest of a list whose items so far, latest first, are
    loaded already. -/
def loadAfter (loaded : List Value) : Datum → Nat → Value × Nat
  | nil, next => Value.ofList loaded.reverse .nil next
  | bool b, next => Value.ofList loaded.reverse (.bool b) next
  | number n, next => Value.ofList loaded.reverse (.number n) next
  | symbol name, next => Value.ofList loaded.reverse (.symbol name) next
  | pair a d, next =>
    let car := loadAfter [] a next
    loadAfter (car.1 :: loaded) d car.2

/-- The value of a datum, made of fresh pairs from the identity `next` on, with
    the next free identity. -/
def load (d : Datum) (next : Nat) : Value × Nat :=
  loadAfter [] d next

theorem loadAfter_eq (loaded : List Value) (d : Datum) (next : Nat) :
    d.loadAfter loaded next = Value.ofList loaded.reverse (d.load next).1 (d.load next).2 := by
  induction d generalizing loaded next with
  | pair a d _ ihd =>
    simp only [load, loadAfter]
    rw [ihd, ihd [_]]
    simp [Value.ofList]
  | _ => simp [load, loadAfter]

/-- A pair is loaded after its halves. -/
theorem load_pair (a d : Datum) (next : Nat) :
    (pair a d).load next =
      let car := a.load next
      let cdr := d.load car.2
      (.pair cdr.2 car.1 cdr.1, cdr.2 + 1) := by
  rw [load, loadAfter, loadAfter_eq]
  simp [load]

end Datum

end ConsMachine
