import WireLambda.Expr

/-!
# Contexts

A context is a tree with one place left open, anywhere in it: below lambdas, as the function
or the argument of an application, in a condition or in a branch.  To fill it with a tree is
to put that tree into the place.  Every occurrence of a part in a tree is one way to write
the tree as a context filled with the part.
-/

namespace WireLambda
namespace Expr

/-- A tree with one place left open. -/
inductive Context where
  | place
  | unary (op : UnaryOp) (c : Context)
  | left (op : BinaryOp) (c : Context) (r : Expr)
  | right (op : BinaryOp) (l : Expr) (c : Context)
  | lambda (x : VarId) (c : Context)
  | condition (c : Context) (t e : Expr)
  | thenBranch (b : Expr) (c : Context) (e : Expr)
  | elseBranch (b t : Expr) (c : Context)
  deriving DecidableEq

/-- The tree with another one put into the open place. -/
def Context.fill (a : Expr) : Context → Expr
  | place => a
  | unary op c => .unary op (c.fill a)
  | left op c r => .binary op (c.fill a) r
  | right op l c => .binary op l (c.fill a)
  | lambda x c => .lambda x (c.fill a)
  | condition c t e => .ite (c.fill a) t e
  | thenBranch b c e => .ite b (c.fill a) e
  | elseBranch b t c => .ite b t (c.fill a)

end Expr
end WireLambda
