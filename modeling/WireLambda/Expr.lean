import WireLambda.Token.Wire

/-!
# Expressions

An expression is a tree whose nodes are the tokens of a program.  `Expr.tokens` writes a
tree down in prefix order, each node before its operands, and `Expr.toWire` spells that
sequence with one space between tokens.

A tree may be too deep to be followed by recursion, so its nodes are visited with the trees that
are still pending in a list, of which the first one is next: `Expr.emit` writes the tokens down in
that way, and `Expr.nodeCount` counts the nodes.  They come to the tokens and to the size of the
tree (`Expr.emit_eq_tokens`, `Expr.nodeCount_eq_size`), since what is done for one pending tree is
done before the next one is looked at.

Since every token fixes how many operands follow it, the prefix order loses nothing: no
brackets are needed, and `Expr.Build` reads the tree back from its tokens.
-/

namespace WireLambda

/-- A program, as a tree. -/
inductive Expr where
  | literal (s : Scalar)
  | var (x : VarId)
  | unary (op : UnaryOp) (e : Expr)
  | binary (op : BinaryOp) (l r : Expr)
  | lambda (x : VarId) (body : Expr)
  | ite (c t e : Expr)
  deriving DecidableEq

namespace Expr

/-- The application of a function to an argument. -/
abbrev apply (f a : Expr) : Expr := binary .apply f a

/-- Whether an expression is a lambda. -/
def isLambda : Expr → Bool
  | lambda _ _ => true
  | _ => false

/-- The number of nodes of a tree. -/
def size : Expr → Nat
  | literal _ | var _ => 1
  | unary _ e => e.size + 1
  | binary _ l r => l.size + r.size + 1
  | lambda _ body => body.size + 1
  | ite c t e => c.size + t.size + e.size + 1

/-- The tokens of a tree in prefix order. -/
def tokens : Expr → List Token
  | literal s => [.literal s]
  | var x => [.var x]
  | unary op e => .unary op :: e.tokens
  | binary op l r => .binary op :: (l.tokens ++ r.tokens)
  | lambda x body => .lambda x :: body.tokens
  | ite c t e => .ite :: (c.tokens ++ t.tokens ++ e.tokens)

/-- The token of a node. -/
def root : Expr → Token
  | literal s => .literal s
  | var x => .var x
  | unary op _ => .unary op
  | binary op _ _ => .binary op
  | lambda x _ => .lambda x
  | ite _ _ _ => .ite

/-- The trees below a node, from left to right. -/
def operands : Expr → List Expr
  | literal _ | var _ => []
  | unary _ e => [e]
  | binary _ l r => [l, r]
  | lambda _ body => [body]
  | ite c t e => [c, t, e]

/-- The number of nodes of some trees. -/
def totalSize : List Expr → Nat
  | [] => 0
  | e :: es => e.size + totalSize es

theorem totalSize_append (es es' : List Expr) :
    totalSize (es ++ es') = totalSize es + totalSize es' := by
  induction es with
  | nil => rw [List.nil_append, totalSize, Nat.zero_add]
  | cons e es ih => rw [List.cons_append, totalSize, totalSize, ih, Nat.add_assoc]

/-- A tree has one node more than the trees below its root. -/
theorem totalSize_operands (e : Expr) : totalSize e.operands + 1 = e.size := by
  cases e <;> simp only [operands, totalSize, size] <;> omega

/-- The order of the trees below the root makes no difference to that. -/
theorem totalSize_reverse_operands (e : Expr) : totalSize e.operands.reverse + 1 = e.size := by
  cases e <;> simp only [operands, totalSize, size, List.reverse_cons, List.reverse_nil,
    List.nil_append, List.cons_append] <;> omega

/-- Writes down the tokens of the trees that are pending.  The trees below a node are put in front
of the others, the first one in front. -/
def emitFrom : List Expr → List Token
  | [] => []
  | e :: pending => e.root :: emitFrom (e.operands ++ pending)
termination_by pending => totalSize pending
decreasing_by
  rw [totalSize_append, totalSize, ← totalSize_operands e]
  omega

/-- The tokens of a tree, written down one by one. -/
def emit (e : Expr) : List Token := emitFrom [e]

/-- Counts the nodes of the trees that are pending, from a count on.  The trees below a node are
put in front of the others, the last one in front. -/
def countFrom (count : Nat) : List Expr → Nat
  | [] => count
  | e :: pending => countFrom (count + 1) (e.operands.reverse ++ pending)
termination_by pending => totalSize pending
decreasing_by
  rw [totalSize_append, totalSize, ← totalSize_reverse_operands e]
  omega

/-- The number of nodes of a tree, counted one by one. -/
def nodeCount (e : Expr) : Nat := countFrom 0 [e]

/-- The token texts of a tree in prefix order, or the error of the first token that
cannot be written. -/
def wireTokens (e : Expr) : Except EncodeError (List String) := e.emit.mapM Token.toWire

/-- The source text of a tree: its tokens with one space between them. -/
def toWire (e : Expr) : Except EncodeError String :=
  e.wireTokens.map (" ".intercalate ·)

/-- A tree has as many tokens as nodes. -/
@[simp] theorem length_tokens (e : Expr) : e.tokens.length = e.size := by
  induction e with
  | literal s => rfl
  | var x => rfl
  | unary op e ih => simp [tokens, size, ih]
  | binary op l r ihl ihr => simp [tokens, size, ihl, ihr]
  | lambda x body ih => simp [tokens, size, ih]
  | ite c t e ihc iht ihe => simp [tokens, size, ihc, iht, ihe, Nat.add_assoc]

theorem tokens_ne_nil (e : Expr) : e.tokens ≠ [] := by
  cases e <;> simp [tokens]

/-! ## Pending trees -/

theorem tokens_eq_root_cons (e : Expr) : e.tokens = e.root :: e.operands.flatMap tokens := by
  cases e <;> simp [tokens, root, operands]

/-- The tokens of the pending trees are written down one tree after the other. -/
theorem emitFrom_eq (pending : List Expr) : emitFrom pending = pending.flatMap tokens := by
  fun_induction emitFrom pending with
  | case1 => rfl
  | case2 e pending ih =>
    rw [ih, List.flatMap_append, List.flatMap_cons, tokens_eq_root_cons, List.cons_append]

/-- All tokens of a tree are written down before those of the next one. -/
theorem emitFrom_cons (e : Expr) (pending : List Expr) :
    emitFrom (e :: pending) = e.tokens ++ emitFrom pending := by
  rw [emitFrom_eq, emitFrom_eq, List.flatMap_cons]

theorem emit_eq_tokens (e : Expr) : e.emit = e.tokens := by
  rw [emit, emitFrom_cons, emitFrom, List.append_nil]

theorem toWire_eq (e : Expr) :
    e.toWire = (e.tokens.mapM Token.toWire).map (" ".intercalate ·) := by
  rw [toWire, wireTokens, emit_eq_tokens]

/-- Each node of the pending trees is counted once. -/
theorem countFrom_eq (count : Nat) (pending : List Expr) :
    countFrom count pending = count + totalSize pending := by
  fun_induction countFrom count pending with
  | case1 count => rfl
  | case2 count e pending ih =>
    rw [ih, totalSize_append, totalSize, ← totalSize_reverse_operands e]
    omega

theorem nodeCount_eq_size (e : Expr) : e.nodeCount = e.size := by
  rw [nodeCount, countFrom_eq, totalSize, totalSize, Nat.zero_add, Nat.add_zero]

end Expr

end WireLambda
