/-!
# Native functions, by reference

A native is a function that the host provides. A value does not hold its
behaviour, only a reference to it: one of the built-in natives, which every
engine starts with, or an entry in the host's table of registered natives
(`ConsMachine.Native.Host`). Two references to one native are the same native,
whatever names it was bound to since.
-/

namespace ConsMachine

/-- The natives every engine starts with. -/
inductive Builtin where
  | cons
  | car
  | cdr
  | isSymbol
  | isPair
  | isAtom
  | isSame
  | add
  | sub
  deriving DecidableEq

namespace Builtin

/-- The built-in natives, in the order they are listed in. -/
def all : List Builtin :=
  [cons, car, cdr, isSymbol, isPair, isAtom, isSame, add, sub]

theorem mem_all (op : Builtin) : op ∈ all := by
  cases op <;> simp [all]

/-- The name a built-in native is bound to. -/
def name : Builtin → String
  | cons => "cons"
  | car => "car"
  | cdr => "cdr"
  | isSymbol => "symbol?"
  | isPair => "cons?"
  | isAtom => "atom?"
  | isSame => "eq?"
  | add => "+"
  | sub => "-"

/-- The built-in native of a name. -/
def ofName? (name : String) : Option Builtin :=
  all.find? fun op => op.name = name

theorem ofName?_name (op : Builtin) : ofName? op.name = some op := by
  cases op <;> rfl

end Builtin

/-- A reference to a native. -/
inductive NativeRef where
  /-- A native every engine starts with. -/
  | builtin (op : Builtin)
  /-- The native registered with the host under `index`, as `name`. -/
  | hosted (index : Nat) (name : String)

namespace NativeRef

/-- The name a native prints with. -/
def name : NativeRef → String
  | builtin op => op.name
  | hosted _ name => name

/-- Natives are the same when they are one function; the name plays no part. -/
def same : NativeRef → NativeRef → Bool
  | builtin a, builtin b => a == b
  | hosted i _, hosted j _ => i == j
  | _, _ => false

@[simp] theorem same_self (f : NativeRef) : f.same f = true := by
  cases f <;> simp [same]

end NativeRef

end ConsMachine
