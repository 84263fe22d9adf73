import WireLambda.Expr

/-!
# Free variables

A lambda binds its variable in its body.  A variable that stands below no lambda of its own
is free, and an expression without free variables is closed.

Scoping is a matter of where a variable stands in the tree.  Evaluation does not follow it:
an argument is evaluated where it is read, and not where it was written.  So `reads`, all the
variables that stand in an expression, free or not, is what an expression may ask of an
environment that it is evaluated in.
-/

namespace WireLambda
namespace Expr

/-- The variables that stand below no lambda of their own, in prefix order. -/
def free : Expr → List VarId
  | literal _ => []
  | var x => [x]
  | unary _ e => e.free
  | binary _ l r => l.free ++ r.free
  | lambda x body => body.free.filter (· != x)
  | ite c t e => c.free ++ t.free ++ e.free

/-- An expression that can be read without knowing its surroundings. -/
def Closed (e : Expr) : Prop := e.free = []

instance : DecidablePred Closed := fun e => inferInstanceAs (Decidable (e.free = []))

/-- The variables that stand in an expression, also below lambdas of their own, in prefix
order. -/
def reads : Expr → List VarId
  | literal _ => []
  | var x => [x]
  | unary _ e => e.reads
  | binary _ l r => l.reads ++ r.reads
  | lambda _ body => body.reads
  | ite c t e => c.reads ++ t.reads ++ e.reads

end Expr
end WireLambda
