import ConsMachine.Native.Ref

/-!
# Values

The values of the machine: the atoms of the list language (the empty list,
booleans, 64-bit integers and symbols), pairs, native functions, closures,
saved continuations and the apply marker. Programs are values too: an
instruction tree is a list of lists.

Pairs, closures and continuations are objects with an *identity*, given to each
when it is made. Identities come from supplies that only count up, one for pairs
and closures, which programs make, and one for continuations, which only the
machine makes; a copy of a value keeps the identities in it. So two values with
the same identity, made in one session, are one object.

A list is read off a value by following its second components: `items` are the
first components passed on the way and `tail` is what the way ends in, the
empty list for a proper list. `ofList` is the converse: it builds a list of
fresh pairs.
-/

namespace ConsMachine

/-- The values on the stack, in environments, in the table of globals and
    inside pairs. -/
inductive Value where
  /-- The empty list. -/
  | nil
  | bool (b : Bool)
  | number (n : Int64)
  /-- A symbol: two symbols are the same when their names are. -/
  | symbol (name : String)
  | pair (id : Nat) (car cdr : Value)
  | native (f : NativeRef)
  /-- A function of the program: code, and the environment it was made in. It
      takes `arity` arguments, and with `hasRest` any number more, as one list. -/
  | closure (id : Nat) (arity : Nat) (hasRest : Bool) (code : Value) (env : List Value)
  /-- What is left to do once a value is known: the instructions to resume, and
      their environment. -/
  | continuation (id : Nat) (control : Value) (env : List Value)
  /-- The marker bound to `apply`: a call of it calls its first argument. -/
  | apply

/-- The types that programs and messages tell apart. -/
inductive Kind where
  | nil
  | boolean
  | number
  | symbol
  | pair
  | native
  | closure
  | continuation
  | apply
  deriving DecidableEq

/-- The name of a type in messages. -/
def Kind.name : Kind → String
  | .nil => "nil"
  | .boolean => "boolean"
  | .number => "number"
  | .symbol => "symbol"
  | .pair => "pair"
  | .native => "native function"
  | .closure => "closure"
  | .continuation => "continuation"
  | .apply => "apply"

namespace Value

/-- Induction over the pairs of a value; whatever is not a pair is a base case. -/
@[elab_as_elim, induction_eliminator]
theorem pairInduction {motive : Value → Prop}
    (nil : motive nil) (bool : ∀ b, motive (bool b)) (number : ∀ n, motive (number n))
    (symbol : ∀ name, motive (symbol name))
    (pair : ∀ id a d, motive a → motive d → motive (pair id a d))
    (native : ∀ f, motive (native f))
    (closure : ∀ id arity hasRest code env, motive (closure id arity hasRest code env))
    (continuation : ∀ id control env, motive (continuation id control env))
    (apply : motive apply) : ∀ v, motive v
  | .nil => nil
  | .bool b => bool b
  | .number n => number n
  | .symbol name => symbol name
  | .pair id a d => pair id a d
      (pairInduction nil bool number symbol pair native closure continuation apply a)
      (pairInduction nil bool number symbol pair native closure continuation apply d)
  | .native f => native f
  | .closure id arity hasRest code env => closure id arity hasRest code env
  | .continuation id control env => continuation id control env
  | .apply => apply

/-- The type of a value. -/
def kind : Value → Kind
  | nil => .nil
  | bool _ => .boolean
  | number _ => .number
  | symbol _ => .symbol
  | pair .. => .pair
  | native _ => .native
  | closure .. => .closure
  | continuation .. => .continuation
  | apply => .apply

/-- Only `#f` is false. -/
def isTrue : Value → Bool
  | bool false => false
  | _ => true

def isNil : Value → Bool
  | nil => true
  | _ => false

def isPair : Value → Bool
  | pair .. => true
  | _ => false

def isSymbol : Value → Bool
  | symbol _ => true
  | _ => false

/-- Everything but a pair is an atom. -/
def isAtom (v : Value) : Bool :=
  !v.isPair

def number? : Value → Option Int64
  | number n => some n
  | _ => none

def symbol? : Value → Option String
  | symbol name => some name
  | _ => none

theorem isNil_iff {v : Value} : v.isNil = true ↔ v = nil := by
  cases v <;> simp [isNil]

/-- The number of pairs in a value, plus one: what is inside a closure or a
    continuation does not count. -/
def size : Value → Nat
  | pair _ a d => 1 + a.size + d.size
  | _ => 1

theorem size_pos (v : Value) : 0 < v.size := by
  cases v <;> simp only [size] <;> omega

/-! ### Lists -/

/-- The items of `v`, after the items already found (latest first). -/
def itemsAfter (found : List Value) : Value → List Value
  | pair _ a d => itemsAfter (a :: found) d
  | _ => found.reverse

/-- The items of a list, proper or not: an atom has none. -/
def items (v : Value) : List Value :=
  itemsAfter [] v

/-- What remains of a list after its items: never a pair. -/
def tail : Value → Value
  | pair _ _ d => d.tail
  | v => v

/-- The items of a proper list. -/
def list? (v : Value) : Option (List Value) :=
  if v.tail.isNil then some v.items else none

/-- The list of `items` that ends in `tail`, made of fresh pairs, with the next
    free identity. The last pair is made first. -/
def ofList (items : List Value) (tail : Value) (next : Nat) : Value × Nat :=
  items.foldr (fun v made => (pair made.2 v made.1, made.2 + 1)) (tail, next)

theorem itemsAfter_eq (found : List Value) (v : Value) :
    v.itemsAfter found = found.reverse ++ v.items := by
  induction v generalizing found with
  | pair _ a d _ ihd => simp [items, itemsAfter, ihd [a], ihd (a :: found)]
  | _ => simp [items, itemsAfter]

@[simp] theorem items_pair (id : Nat) (a d : Value) :
    (pair id a d).items = a :: d.items := by
  simp [items, itemsAfter, itemsAfter_eq [a]]

theorem items_of_isAtom {v : Value} (h : v.isAtom = true) : v.items = [] := by
  cases v with
  | pair => simp [isAtom, isPair] at h
  | _ => rfl

@[simp] theorem tail_pair (id : Nat) (a d : Value) : (pair id a d).tail = d.tail := rfl

theorem tail_of_isAtom {v : Value} (h : v.isAtom = true) : v.tail = v := by
  cases v with
  | pair => simp [isAtom, isPair] at h
  | _ => rfl

theorem isAtom_tail (v : Value) : v.tail.isAtom = true := by
  induction v with
  | pair _ _ _ _ ih => exact ih
  | _ => rfl

@[simp] theorem ofList_nil (tail : Value) (next : Nat) : ofList [] tail next = (tail, next) := rfl

@[simp] theorem ofList_cons (v : Value) (vs : List Value) (tail : Value) (next : Nat) :
    ofList (v :: vs) tail next =
      (pair (ofList vs tail next).2 v (ofList vs tail next).1, (ofList vs tail next).2 + 1) :=
  rfl

@[simp] theorem items_ofList (vs : List Value) (tail : Value) (next : Nat) :
    (ofList vs tail next).1.items = vs ++ tail.items := by
  induction vs with
  | nil => rfl
  | cons v vs ih => simp [ih]

@[simp] theorem tail_ofList (vs : List Value) (tail : Value) (next : Nat) :
    (ofList vs tail next).1.tail = tail.tail := by
  induction vs with
  | nil => rfl
  | cons v vs ih => simp [ih]

/-- A list of `n` items takes `n` identities. -/
theorem ofList_next (vs : List Value) (tail : Value) (next : Nat) :
    (ofList vs tail next).2 = next + vs.length := by
  induction vs with
  | nil => rfl
  | cons v vs ih => simp [ih]; omega

/-- A list of fresh pairs reads back as the items it was made of. -/
theorem list?_ofList (vs : List Value) (next : Nat) :
    (ofList vs nil next).1.list? = some vs := by
  simp [list?, tail, isNil, items_of_isAtom (v := nil) rfl]

end Value

end ConsMachine
