import ConsMachine.Native.Basic
import ConsMachine.Value.Equality

/-!
# Built-in natives

What the natives do that every engine starts with. They are strict: `car` and
`cdr` of an atom are type errors, sums and differences that 64 bits do not hold
are errors of evaluation, and every one takes a fixed number of arguments.
-/

namespace ConsMachine.Builtin

/-- What a built-in native does with its arguments. -/
def run : Builtin → Native
  | cons => .typed [.value, .value] fun (a, d, ()) => Alloc.cons a d
  | car => .typed [.value] fun (v, ()) => v.car
  | cdr => .typed [.value] fun (v, ()) => v.cdr
  | isSymbol => .typed [.value] fun (v, ()) => pure (.bool v.isSymbol)
  | isPair => .typed [.value] fun (v, ()) => pure (.bool v.isPair)
  | isAtom => .typed [.value] fun (v, ()) => pure (.bool v.isAtom)
  | isSame => .typed [.value, .value] fun (v, w, ()) => pure (.bool (v.same w))
  | add => .typed [.number, .number] fun (a, b, ()) =>
    match Number.add? a b with
    | some n => pure (.number n)
    | none => throw (.evaluation "Integer overflow in addition")
  | sub => .typed [.number, .number] fun (a, b, ()) =>
    match Number.sub? a b with
    | some n => pure (.number n)
    | none => throw (.evaluation "Integer overflow in subtraction")

/-- The arity a built-in native is registered with. -/
def arity : Builtin → Arity
  | cons => .exactly 2
  | car => .exactly 1
  | cdr => .exactly 1
  | isSymbol => .exactly 1
  | isPair => .exactly 1
  | isAtom => .exactly 1
  | isSame => .exactly 2
  | add => .exactly 2
  | sub => .exactly 2

/-- The diagnostic form of a built-in native. -/
def detail (op : Builtin) : String :=
  "BuiltinOp \x7b name: \"" ++ op.name ++ "\", arity: " ++ op.arity.detail ++ ", .. \x7d"

end ConsMachine.Builtin
