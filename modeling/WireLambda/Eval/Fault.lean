import WireLambda.Diagnostics
import WireLambda.Eval.Value

/-!
# How an evaluation fails

A `Fault` is a failure that the program itself is to blame for: it is the same whatever
amount of work the program is allowed to do.  Running out of gas is not a fault, but a
verdict on that amount, and joins the faults only in `EvalError`, which is what a caller
is given.
-/

namespace WireLambda

/-- A failure that a program is to blame for. -/
inductive Fault where
  | unboundVariable (x : VarId)
  /-- An operator was given a value of a kind it has no result for. -/
  | unaryMismatch (op : UnaryOp) (found : Kind)
  | binaryMismatch (op : BinaryOp) (left right : Kind)
  /-- The condition of a conditional is not a truth value. -/
  | conditionMismatch (found : Kind)
  /-- A lambda was evaluated where no argument was waiting. -/
  | stackUnderflow (x : VarId)
  | divisionByZero
  /-- A text could not be turned into a number, or a number into a text. -/
  | conversion (e : Base94.CodecError)
  deriving DecidableEq

/-- How an evaluation ends without a value. -/
inductive EvalError where
  | fault (f : Fault)
  | gasExhausted
  deriving DecidableEq

namespace Fault

/-- The message of a mismatch between what is expected and what was found. -/
def mismatchMessage (op expected found : String) : String :=
  "type mismatch: " ++ op ++ " expected " ++ expected ++ ", found " ++ found

/-- What a reader is told. -/
def message : Fault → String
  | unboundVariable x => "unbound variable: " ++ x.display
  | unaryMismatch op found => mismatchMessage op.name op.expected found.name
  | binaryMismatch op left right =>
      mismatchMessage op.name op.expected (left.name ++ " and " ++ right.name)
  | conditionMismatch found => mismatchMessage "if" "boolean condition" found.name
  | stackUnderflow x =>
      "stack underflow: lambda " ++ x.display ++ " has no argument to bind"
  | divisionByZero => "division by zero"
  | conversion e => "conversion failed: " ++ e.message

/-- The code that a fault is reported under. -/
def code : Fault → ErrorCode
  | unboundVariable _ => .unboundVariable
  | unaryMismatch _ _ | binaryMismatch _ _ _ | conditionMismatch _ => .typeMismatch
  | stackUnderflow _ => .stackUnderflow
  | divisionByZero => .divisionByZero
  | conversion _ => .conversionFailed

end Fault

namespace EvalError

/-- What a reader is told. -/
def message : EvalError → String
  | fault f => f.message
  | gasExhausted => "gas exhausted"

/-- The code that the error is reported under. -/
def code : EvalError → ErrorCode
  | fault f => f.code
  | gasExhausted => .gasExhausted

end EvalError

end WireLambda
