import ConsMachine.Value.Text
import ConsMachine.Datum.ReadError

/-!
# Errors

Everything that can stop the reading or the running of a program, by cause, and
the message of each (`Error.message`). No error is a value of the language, and
none is caught while a program runs.
-/

namespace ConsMachine

/-- What is wrong with a form that should be an instruction. -/
inductive FormFault where
  /-- The instructions to run are no list. -/
  | notList
  | notPair
  | kindNotSymbol
  | improperOperands
  | operandCount
  | unknownKind
  | indexNotCount
  | arityNotCount
  | argumentsNotCount
  | nameNotSymbol
  deriving DecidableEq

/-- The wording of a fault, in front of the form. -/
def FormFault.reason : FormFault → String
  | notList => "instruction tree is not a list"
  | notPair => "instruction is not a cons"
  | kindNotSymbol => "instruction kind is not a symbol"
  | improperOperands => "instruction operands are not a proper list"
  | operandCount => "wrong number of operands"
  | unknownKind => "unrecognized instruction kind"
  | indexNotCount => "access index must be a non-negative integer"
  | arityNotCount => "closure arity must be a non-negative integer"
  | argumentsNotCount => "call argument count must be a non-negative integer"
  | nameNotSymbol => "operand must be a symbol"

/-- What a value of the wrong type was used for. -/
inductive TypeFault where
  /-- The first half of an atom. -/
  | carOf (v : Value)
  /-- The second half of an atom. -/
  | cdrOf (v : Value)
  /-- The items of something other than a proper list. -/
  | notProperList (v : Value)
  /-- An argument of another type than the native expects. -/
  | argument (expected : Kind) (got : Value)
  /-- A call of something that is no function. -/
  | notCallable (v : Value)
  /-- A result with something other than a continuation beneath it. -/
  | notContinuation (v : Value)

/-- The wording of a type fault. -/
def TypeFault.reason : TypeFault → String
  | carOf v => "car: not a cons pair: " ++ v.print
  | cdrOf v => "cdr: not a cons pair: " ++ v.print
  | notProperList v => "not a proper list: " ++ v.print
  | argument expected got => "expected " ++ expected.name ++ ", got " ++ got.kind.name
  | notCallable v => "cannot call non-function " ++ v.print ++ " (" ++ v.kind.name ++ ")"
  | notContinuation v => "expected a continuation beneath the result, found " ++ v.print

/-- What the host did that it must not do. -/
inductive Misuse where
  /-- A step after the end of the run. -/
  | stepAfterEnd
  /-- The result of a run before its end. -/
  | resultBeforeEnd
  /-- The result of a run that ended without a value. -/
  | noResult
  /-- A breach of a native's own contract. -/
  | ofNative (reason : String)

/-- The wording of a misuse. -/
def Misuse.reason : Misuse → String
  | stepAfterEnd => "step called on a finished thread"
  | resultBeforeEnd => "result requested before the thread finished"
  | noResult => "result requires exactly one stack value, found 0"
  | ofNative reason => reason

/-- Why a program cannot be read or run. -/
inductive Error where
  /-- The text of the program cannot be read. -/
  | read (e : ReadError)
  /-- A form is no instruction. -/
  | malformed (fault : FormFault) (form : Value)
  /-- A function got another number of arguments than it takes: `expected`, or
      with `atLeast` that many or more. -/
  | arity (expected got : Nat) (atLeast : Bool)
  /-- A global that is not bound. -/
  | unbound (name : String)
  /-- A position beyond the end of the environment. -/
  | outOfEnvironment (index length : Nat)
  /-- Fewer values on the stack than an instruction needs. -/
  | underflow (needed available : Nat)
  /-- A value of the wrong type. -/
  | type (fault : TypeFault)
  /-- A native failed for a reason of its own. -/
  | evaluation (reason : String)
  | misuse (fault : Misuse)

namespace Error

/-- The error as it is shown. -/
def message : Error → String
  | read e => e.text
  | malformed fault form => "Malformed instruction: " ++ fault.reason ++ ": " ++ form.print
  | arity expected got atLeast =>
    "ArityError: " ++ (if got < expected then "too few" else "too many") ++
      " arguments: expected " ++ (if atLeast then "at least " else "") ++ expected.repr ++
      ", got " ++ got.repr
  | unbound name => "Unbound global: " ++ name
  | outOfEnvironment index length =>
    "Access out of range: index " ++ index.repr ++ " in environment of length " ++ length.repr
  | underflow needed available =>
    "Stack underflow: needed " ++ needed.repr ++ " values, " ++ available.repr ++ " available"
  | type fault => "Type error: " ++ fault.reason
  | evaluation reason => "EvaluationError: " ++ reason
  | misuse fault => "Contract violation: " ++ fault.reason

end Error

namespace Value

/-- The first half of a pair. -/
def car : Value → Except Error Value
  | pair _ a _ => .ok a
  | v => .error (.type (.carOf v))

/-- The second half of a pair. -/
def cdr : Value → Except Error Value
  | pair _ _ d => .ok d
  | v => .error (.type (.cdrOf v))

/-- The items of a proper list; anything else is a type error. -/
def toList (v : Value) : Except Error (List Value) :=
  match v.list? with
  | some vs => .ok vs
  | none => .error (.type (.notProperList v))

end Value

end ConsMachine
