import WireLambda.Expr

/-!
# Values

Evaluating a node gives a value, and a value is either finished or not: arguments are
passed unevaluated, so a variable may stand for an expression nobody has looked at yet.

`Value.deferred e` is such an expression.  It carries no environment.  Whoever needs a
finished value evaluates it where it is needed, in the environment that holds there.
-/

namespace WireLambda

/-- What a value is called in messages. -/
inductive Kind where
  | boolean
  | integer
  | string
  | unevaluated
  deriving DecidableEq

/-- The word for a kind of value. -/
def Kind.name : Kind → String
  | boolean => "boolean"
  | integer => "integer"
  | string => "string"
  | unevaluated => "unevaluated expression"

/-- What evaluating a node gives. -/
inductive Value where
  | scalar (s : Scalar)
  | deferred (e : Expr)
  deriving DecidableEq

/-- The kind of a scalar. -/
def Scalar.kind : Scalar → Kind
  | bool _ => .boolean
  | int _ => .integer
  | str _ => .string

theorem Scalar.kind_ne_unevaluated (s : Scalar) : s.kind ≠ .unevaluated := by
  cases s <;> simp [kind]

namespace Value

/-- The kind of a value. -/
def kind : Value → Kind
  | scalar s => s.kind
  | deferred _ => .unevaluated

/-- Whether a value still waits to be evaluated. -/
def isDeferred : Value → Bool
  | scalar _ => false
  | deferred _ => true

/-- The finished value, if it is one. -/
def scalar? : Value → Option Scalar
  | scalar s => some s
  | deferred _ => none

/-- A value as it is shown to a user. -/
def display : Value → String
  | scalar s => s.display
  | deferred _ => "<unevaluated expression>"

end Value

end WireLambda
