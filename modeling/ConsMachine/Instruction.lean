import ConsMachine.Error
import ConsMachine.Value.Equality

/-!
# Instructions

A program is a list of instructions, and an instruction is a list: a symbol
that says which operation it is, and the operands of that operation.

* `(push v)` pushes `v`;
* `(pop)` drops the top of the stack;
* `(access n)` pushes entry `n` of the environment;
* `(closure n rest code)` pushes a function of `n` parameters, and of any number
  more unless `rest` is `#f`;
* `(call n)` calls the value beneath the top `n` with these as arguments;
* `(if then else)` drops the top, and goes on with one of two programs;
* `(get-global name)` and `(set-global name)` push a global, and bind one to the
  top without dropping it.

The machine never translates a program: it takes one form after another off the
list and decodes it as it goes. `encode` is the way back; only a rest flag may
look different afterwards.
-/

namespace ConsMachine

/-- The operations of the machine. -/
inductive Opcode where
  | push
  | pop
  | access
  | closure
  | call
  | branch
  | getGlobal
  | setGlobal
  deriving DecidableEq

namespace Opcode

/-- All operations. -/
def all : List Opcode :=
  [push, pop, access, closure, call, branch, getGlobal, setGlobal]

/-- The symbol at the head of an instruction. -/
def name : Opcode → String
  | push => "push"
  | pop => "pop"
  | access => "access"
  | closure => "closure"
  | call => "call"
  | branch => "if"
  | getGlobal => "get-global"
  | setGlobal => "set-global"

/-- The operation of a name. -/
def ofName? (name : String) : Option Opcode :=
  all.find? fun op => op.name = name

@[simp] theorem ofName?_name (op : Opcode) : ofName? op.name = some op := by
  cases op <;> rfl

theorem ofName?_eq_some_iff {name : String} {op : Opcode} :
    ofName? name = some op ↔ name = op.name := by
  constructor
  · intro h
    have := List.find?_some h
    simpa using (of_decide_eq_true this).symm
  · rintro rfl
    exact ofName?_name op

end Opcode

/-- One instruction. -/
inductive Instruction where
  | push (v : Value)
  | pop
  | access (index : Nat)
  | closure (arity : Nat) (hasRest : Bool) (code : Value)
  | call (count : Nat)
  | branch (thenCode elseCode : Value)
  | getGlobal (name : String)
  | setGlobal (name : String)

namespace Instruction

/-- An operand that counts something: a number that is not negative. -/
def count? (v : Value) : Option Nat :=
  match v with
  | .number n => if 0 ≤ n then some n.toInt.toNat else none
  | _ => none

/-- The instruction of an operation with operands. -/
def ofOperands : Opcode → List Value → Except FormFault Instruction
  | .push, [v] => .ok (push v)
  | .pop, [] => .ok pop
  | .access, [n] =>
    match count? n with
    | some n => .ok (access n)
    | none => .error .indexNotCount
  | .closure, [n, rest, code] =>
    match count? n with
    | some n => .ok (closure n rest.isTrue code)
    | none => .error .arityNotCount
  | .call, [n] =>
    match count? n with
    | some n => .ok (call n)
    | none => .error .argumentsNotCount
  | .branch, [thenCode, elseCode] => .ok (branch thenCode elseCode)
  | .getGlobal, [.symbol name] => .ok (getGlobal name)
  | .getGlobal, [_] => .error .nameNotSymbol
  | .setGlobal, [.symbol name] => .ok (setGlobal name)
  | .setGlobal, [_] => .error .nameNotSymbol
  | _, _ => .error .operandCount

/-- The instruction that a form spells, or what is wrong with the form. -/
def ofForm : Value → Except FormFault Instruction
  | .pair _ (.symbol name) rest =>
    match rest.list? with
    | none => .error .improperOperands
    | some operands =>
      match Opcode.ofName? name with
      | some op => ofOperands op operands
      | none => .error .unknownKind
  | .pair .. => .error .kindNotSymbol
  | _ => .error .notPair

/-- Decode a form. -/
def decode (form : Value) : Except Error Instruction :=
  match ofForm form with
  | .ok i => .ok i
  | .error fault => .error (.malformed fault form)

/-- The operation of an instruction. -/
def opcode : Instruction → Opcode
  | push _ => .push
  | pop => .pop
  | access _ => .access
  | closure .. => .closure
  | call _ => .call
  | branch .. => .branch
  | getGlobal _ => .getGlobal
  | setGlobal _ => .setGlobal

/-- The operands of an instruction. -/
def operands : Instruction → List Value
  | push v => [v]
  | pop => []
  | access n => [.number (Int64.ofNat n)]
  | closure arity hasRest code => [.number (Int64.ofNat arity), .bool hasRest, code]
  | call n => [.number (Int64.ofNat n)]
  | branch thenCode elseCode => [thenCode, elseCode]
  | getGlobal name => [.symbol name]
  | setGlobal name => [.symbol name]

/-- The form of an instruction, made of fresh pairs. -/
def encode (i : Instruction) (next : Nat) : Value × Nat :=
  Value.ofList (.symbol i.opcode.name :: i.operands) .nil next

/-- The forms of several instructions. -/
def encodeForms : List Instruction → Nat → List Value × Nat
  | [], next => ([], next)
  | i :: is, next =>
    let form := i.encode next
    let forms := encodeForms is form.2
    (form.1 :: forms.1, forms.2)

/-- The program of several instructions, made of fresh pairs. -/
def encodeAll (is : List Instruction) (next : Nat) : Value × Nat :=
  let forms := encodeForms is next
  Value.ofList forms.1 .nil forms.2

/-- Two instructions are the same when they are one operation on the same
    operands. -/
def same : Instruction → Instruction → Bool
  | push v, push w => v.same w
  | pop, pop => true
  | access m, access n => m == n
  | closure m r c, closure n s d => m == n && r == s && c.same d
  | call m, call n => m == n
  | branch a b, branch c d => a.same c && b.same d
  | getGlobal a, getGlobal b => a == b
  | setGlobal a, setGlobal b => a == b
  | _, _ => false

/-- An instruction is written as its form. -/
def text (i : Instruction) : String :=
  (i.encode 0).1.print

/-- The diagnostic form of an instruction. -/
def detail : Instruction → String
  | push v => "Push(" ++ v.detail ++ ")"
  | pop => "Pop"
  | access n => "Access(" ++ n.repr ++ ")"
  | closure arity hasRest code =>
    "Closure \x7b arity: " ++ arity.repr ++ ", has_rest_param: " ++
      (if hasRest then "true" else "false") ++ ", code: " ++ code.detail ++ " \x7d"
  | call n => "Call(" ++ n.repr ++ ")"
  | branch thenCode elseCode =>
    "If \x7b then_instrs: " ++ thenCode.detail ++ ", else_instrs: " ++ elseCode.detail ++ " \x7d"
  | getGlobal name => "GetGlobal(Symbol(" ++ name ++ "))"
  | setGlobal name => "SetGlobal(Symbol(" ++ name ++ "))"

end Instruction

end ConsMachine
