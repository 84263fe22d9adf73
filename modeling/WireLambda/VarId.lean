/-!
# Variables

A variable is known by a number that fits a 64-bit word.  Nothing but equality of these
numbers matters to evaluation.
-/

namespace WireLambda

/-- The name of a variable: a 64-bit number. -/
structure VarId where
  index : UInt64
  deriving DecidableEq

/-- Variables are shown by their number after a `v`. -/
def VarId.display (x : VarId) : String := "v" ++ x.index.toNat.repr

end WireLambda
