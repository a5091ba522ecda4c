import ConsMachine.Native.Basic
import ConsMachine.Value.Equality

/-!
# A catalogue of natives

Natives that a host can register by name: fixed parameters of every type, rests
of every type with and without a prefix, and natives that take their arguments
as they come.
-/

namespace ConsMachine.Catalogue

/-- The failure of arithmetic that 64 bits do not hold. -/
def overflow {α : Type} : Alloc α :=
  throw (.evaluation "host overflow")

/-- The number, unless there is none. -/
def orOverflow : Option Int64 → Alloc Int64
  | some n => pure n
  | none => overflow

/-- The sum of numbers, taken from left to right. -/
def sum? (ns : List Int64) : Option Int64 :=
  ns.foldlM Number.add? 0

/-- How many values there are, as a value. -/
def count {α : Type} (vs : List α) : Value :=
  .number (Int64.ofNat vs.length)

/-- The natives with fixed parameters. -/
def fixed? : String → Option Native
  | "zero" => some <| .typed [] fun () => pure (.number 7)
  | "negate" => some <| .typed [.number] fun (n, ()) => do
    return .number (← orOverflow (Number.sub? 0 n))
  | "not" => some <| .typed [.boolean] fun (b, ()) => pure (.bool !b)
  | "xor" => some <| .typed [.boolean, .boolean] fun (a, b, ()) => pure (.bool (a != b))
  | "sym-len" => some <| .typed [.symbol] fun (name, ()) =>
    pure (.number (Int64.ofNat name.utf8ByteSize))
  | "sym-id" => some <| .typed [.symbol] fun (name, ()) => pure (.symbol name)
  | "sym-need-a" => some <| .typed [.symbol] fun (name, ()) =>
    if name.toList.head? = some 'a' then pure (.symbol name)
    else throw (.evaluation ("bad symbol " ++ name))
  | "id" => some <| .typed [.value] fun (v, ()) => pure v
  | "fail" => some <| .typed [.value] fun (v, ()) => throw (.evaluation ("boom " ++ v.print))
  | "type-of" => some <| .typed [.value] fun (v, ()) => pure (.symbol v.kind.name)
  | "same" => some <| .typed [.value, .value] fun (v, w, ()) => pure (.bool (v.same w))
  | "equal" => some <| .typed [.value, .value] fun (v, w, ()) => pure (.bool (v.equal w))
  | "clamp" => some <| .typed [.number, .number, .number] fun (lo, hi, n, ()) =>
    if hi < lo then throw (.evaluation "clamp: empty range")
    else pure (.number (if n < lo then lo else if hi < n then hi else n))
  | "pick" => some <| .typed [.boolean, .symbol, .value, .value] fun (f, name, a, b, ()) =>
    if f then Alloc.cons (.symbol name) a else pure b
  | _ => none

/-- The natives with a rest, given the arity that is declared for them. -/
def variadic? (declared : Arity) : String → Option Native
  | "list" => some <| .variadic declared [] .value fun () vs => Alloc.list vs
  | "sum" => some <| .variadic declared [] .number fun () ns => do
    return .number (← orOverflow (sum? ns))
  | "num-count" => some <| .variadic declared [] .number fun () ns => pure (count ns)
  | "all" => some <| .variadic declared [] .boolean fun () bs => pure (.bool (bs.all id))
  | "count-after" => some <| .variadic declared [.value] .value fun _ vs => pure (count vs)
  | "bools-after" => some <| .variadic declared [.boolean] .boolean fun (b, ()) bs =>
    pure (count (bs.filter (· == b)))
  | "tagged" => some <| .variadic declared [.symbol, .value] .value fun (name, v, ()) vs =>
    Alloc.list (.symbol name :: v :: vs)
  | "offset-sum" => some <| .variadic declared [.number, .number] .number
    fun (base, scale, ()) ns => do
      let sum ← orOverflow (sum? ns)
      let scaled ← orOverflow (Number.mul? scale sum)
      return .number (← orOverflow (Number.add? base scaled))
  | _ => none

/-- The natives that take their arguments as they come. -/
def raw? : String → Option Native
  | "count" => some fun args => pure (count args)
  | "first" => some fun
    | v :: _ => pure v
    | [] => throw (.misuse (.ofNative "first of nothing"))
  | _ => none

/-- The native of a name; the arity matters only to those with a rest. -/
def find? (declared : Arity) (name : String) : Option Native :=
  fixed? name <|> variadic? declared name <|> raw? name

end ConsMachine.Catalogue
