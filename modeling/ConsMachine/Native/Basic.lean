import ConsMachine.Error

/-!
# Native functions

A native takes its arguments and either returns one value or fails. It may make
pairs: it is given the next free identity and returns the one after its own
objects (`Alloc`). It sees nothing of the machine.

Most natives are *typed*: they have a signature, and a body on arguments that
are already converted. The number of arguments is checked first, then each is
converted from left to right, and only then the body runs. A signature has a
prefix of parameters and possibly a rest: any number of further arguments of one
type. A native with a rest also declares an arity of its own, checked before
everything else.
-/

namespace ConsMachine

/-! ### Arity -/

/-- How many arguments a function takes. -/
inductive Arity where
  | exactly (n : Nat)
  | atLeast (n : Nat)
  | any
  deriving DecidableEq

namespace Arity

/-- Check a number of arguments. -/
def check : Arity → Nat → Except Error Unit
  | exactly n, got => if got = n then .ok () else .error (.arity n got false)
  | atLeast n, got => if got < n then .error (.arity n got true) else .ok ()
  | any, _ => .ok ()

/-- The diagnostic form of an arity. -/
def detail : Arity → String
  | exactly n => "Exact(" ++ n.repr ++ ")"
  | atLeast n => "AtLeast(" ++ n.repr ++ ")"
  | any => "Any"

end Arity

/-! ### Natives -/

/-- A computation that may make objects, from the next free identity on. -/
abbrev Alloc (α : Type) := StateT Nat (Except Error) α

/-- What a native does with its arguments. -/
abbrev Native := List Value → Alloc Value

namespace Alloc

/-- A fresh pair. -/
def cons (car cdr : Value) : Alloc Value := fun next =>
  .ok (.pair next car cdr, next + 1)

/-- A fresh list of `items` that ends in `tail`. -/
def listOnto (items : List Value) (tail : Value) : Alloc Value := fun next =>
  .ok (Value.ofList items tail next)

/-- A fresh proper list. -/
def list (items : List Value) : Alloc Value :=
  listOnto items .nil

end Alloc

/-! ### Signatures -/

/-- The type of a parameter. -/
inductive ParamType where
  /-- Any value, as it is. -/
  | value
  | number
  | boolean
  | symbol
  deriving DecidableEq

namespace ParamType

/-- What the body of a native gets for a parameter. -/
abbrev Carrier : ParamType → Type
  | value => Value
  | number => Int64
  | boolean => Bool
  | symbol => String

/-- Convert an argument. -/
def convert : (t : ParamType) → Value → Except Error t.Carrier
  | value, v => .ok v
  | number, .number n => .ok n
  | number, v => .error (.type (.argument .number v))
  | boolean, .bool b => .ok b
  | boolean, v => .error (.type (.argument .boolean v))
  | symbol, .symbol name => .ok name
  | symbol, v => .error (.type (.argument .symbol v))

end ParamType

/-- The arguments of a list of parameters, converted: a nested pair that ends in
    the unit. -/
abbrev Arguments : List ParamType → Type
  | [] => Unit
  | t :: ts => t.Carrier × Arguments ts

/-- Convert the first arguments from left to right, and leave the others; the
    first that does not fit is the error. -/
def Arguments.take : (ts : List ParamType) → (vs : List Value) → ts.length ≤ vs.length →
    Except Error (Arguments ts × List Value)
  | [], vs, _ => .ok ((), vs)
  | t :: ts, v :: vs, h => do
    let a ← t.convert v
    let (as, rest) ← take ts vs (Nat.le_of_succ_le_succ h)
    .ok ((a, as), rest)

/-- Convert the arguments of a rest parameter; the first that does not fit is
    the error. -/
def convertRest (t : ParamType) : List Value → Except Error (List t.Carrier)
  | [] => .ok []
  | v :: vs => do
    let a ← t.convert v
    let as ← convertRest t vs
    .ok (a :: as)

/-- The native with the parameters `ts` and a body on the converted arguments. -/
def Native.typed (ts : List ParamType) (body : Arguments ts → Alloc Value) : Native := fun args =>
  if h : args.length = ts.length then do
    let (as, _) ← Arguments.take ts args (Nat.le_of_eq h.symm)
    body as
  else throw (.arity ts.length args.length false)

/-- The native with the parameters `ts` and a rest of type `t`, of which any
    call must also meet the arity that was declared for it. -/
def Native.variadic (declared : Arity) (ts : List ParamType) (t : ParamType)
    (body : Arguments ts → List t.Carrier → Alloc Value) : Native := fun args => do
  declared.check args.length
  if h : ts.length ≤ args.length then
    let (as, others) ← Arguments.take ts args h
    let rest ← convertRest t others
    body as rest
  else throw (.arity ts.length args.length true)

end ConsMachine
