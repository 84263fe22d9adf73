/-!
# Scalars

A program computes one of three kinds of value that can leave it: a truth value, an
integer of any size, or a text.  The same three are the literals of the language, so a
literal is a scalar and evaluates to itself.
-/

namespace WireLambda

/-- A finished value, which is also what a literal denotes. -/
inductive Scalar where
  | bool (b : Bool)
  | int (n : Int)
  | str (s : String)
  deriving DecidableEq

namespace Scalar

/-- The value as it is shown to a user: a text stands as it is, without quotes. -/
def display : Scalar → String
  | .bool b => if b then "true" else "false"
  | .int n => n.repr
  | .str s => s

/-- The text, if the value is one. -/
def text? : Scalar → Option String
  | .str s => some s
  | _ => none

end Scalar

end WireLambda
