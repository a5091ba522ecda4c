import ConsMachine.Native.Basic

/-!
# Arguments in their slots

The arguments of a call lie in slots, in their order, and the parameters of a native take
hold of them there, each of the one in its own slot. A value may be taken out, and then its
slot is left with the empty list in it; or it may stay, and is looked at in its slot when
the body runs, after all parameters have taken hold of theirs. The other types are copied.

A rest is an iterator over the slots behind those of the parameters. All of them are checked
before it is made, because the iterator itself has no way to fail: it would stop at an
argument of the wrong type as it stops at the end.

`Native.fixed` and `Native.withRest` are natives on slots. Those of `ConsMachine.Native.Basic`
do the same on values and lists.
-/

namespace ConsMachine

/-- A parameter, and how it takes hold of its argument. -/
inductive Parameter where
  /-- A value that is taken out of its slot. -/
  | owned
  /-- A value that stays in its slot. -/
  | borrowed
  | number
  | boolean
  | symbol

namespace Parameter

/-- The type of a parameter. -/
abbrev type : Parameter → ParamType
  | owned => .value
  | borrowed => .value
  | number => .number
  | boolean => .boolean
  | symbol => .symbol

end Parameter

/-- What a parameter holds: something of its own, or a view of its slot. -/
inductive Held : ParamType → Type where
  | own {t : ParamType} (a : t.Carrier) : Held t
  | view : Held .value

/-- What the body gets, when it looks into the slot. -/
def Held.look {t : ParamType} (slot : Value) : Held t → t.Carrier
  | own a => a
  | view => slot

/-- Take hold of the argument in a slot. With what the parameter holds comes what is left
    in the slot. -/
def Parameter.hold : (p : Parameter) → Value → Except Error (Held p.type × Value)
  | owned, v => .ok (.own v, .nil)
  | borrowed, v => .ok (.view, v)
  | number, v => do
    let n ← ParamType.number.convert v
    .ok (.own n, v)
  | boolean, v => do
    let b ← ParamType.boolean.convert v
    .ok (.own b, v)
  | symbol, v => do
    let name ← ParamType.symbol.convert v
    .ok (.own name, v)

/-- What several parameters hold, each with its slot. -/
abbrev Holdings : List Parameter → Type
  | [] => Unit
  | p :: ps => (Held p.type × Value) × Holdings ps

namespace Holdings

/-- Take hold of the first arguments from left to right, and leave the others; the first
    that does not fit is the error. -/
def take : (ps : List Parameter) → (slots : List Value) → ps.length ≤ slots.length →
    Except Error (Holdings ps × List Value)
  | [], slots, _ => .ok ((), slots)
  | p :: ps, v :: slots, h => do
    let held ← p.hold v
    let (others, rest) ← take ps slots (Nat.le_of_succ_le_succ h)
    .ok ((held, others), rest)

/-- What the body gets, when all parameters hold their arguments. -/
def look : (ps : List Parameter) → Holdings ps → Arguments (ps.map Parameter.type)
  | [], _ => ()
  | _ :: ps, ((held, slot), others) => (held.look slot, look ps others)

end Holdings

/-- An iterator over the arguments of a rest. -/
structure RestIterator (t : ParamType) where
  /-- The slots still to come. -/
  slots : List Value

namespace RestIterator

variable {t : ParamType}

/-- Check the arguments of a rest; the first that does not fit is the error. -/
def check (t : ParamType) : List Value → Except Error Unit
  | [] => .ok ()
  | v :: slots => do
    let _ ← t.convert v
    check t slots

/-- The iterator over arguments that fit. -/
def ofSlots (t : ParamType) (slots : List Value) : Except Error (RestIterator t) := do
  check t slots
  .ok ⟨slots⟩

/-- Take the next argument. -/
def next (it : RestIterator t) : Option t.Carrier × RestIterator t :=
  match it.slots with
  | [] => (none, it)
  | v :: slots => ((t.convert v).toOption, ⟨slots⟩)

/-- The number of arguments that the iterator says are still to come. -/
def length (it : RestIterator t) : Nat :=
  it.slots.length

end RestIterator

namespace Native

/-- The native with parameters on slots, and a body on what they hold. -/
def fixed (ps : List Parameter) (body : Arguments (ps.map Parameter.type) → Alloc Value) :
    Native := fun args =>
  if h : args.length = ps.length then do
    let (held, _) ← Holdings.take ps args (Nat.le_of_eq h.symm)
    body (held.look ps)
  else throw (.arity ps.length args.length false)

/-- The native with parameters on slots and an iterator over a rest of type `t`, of which any
    call must also meet the arity that was declared for it. -/
def withRest (declared : Arity) (ps : List Parameter) (t : ParamType)
    (body : Arguments (ps.map Parameter.type) → RestIterator t → Alloc Value) :
    Native := fun args => do
  declared.check args.length
  if h : ps.length ≤ args.length then
    let (held, slots) ← Holdings.take ps args h
    let rest ← RestIterator.ofSlots t slots
    body (held.look ps) rest
  else throw (.arity ps.length args.length true)

end Native

end ConsMachine
