import WireLambda.Diagnostics
import WireLambda.Expr

/-!
# Building a tree from its tokens

Reading a prefix sequence needs to remember, at each point, the nodes that still lack an
operand.  The innermost comes first.  Each is an `OpenNode`: its position and a `Hole`,
which is the node with the operands it already has and one place left to fill next.

`readFrom` takes the tokens from left to right.  A leaf completes an expression, which
fills the innermost hole; that may complete the node of the hole in turn, and so on
outwards (`Progress.ofExpr`).  Any other token opens a node.  The sequence is read as soon
as an expression is complete and no node is open, and what follows is not looked at.  When
the tokens run out before that, the node to blame is the innermost open one.

`readFrom_tokens` is the law of the reader: reading the tokens of a tree is completing
that tree, whatever is open around it and whatever follows.
-/

namespace WireLambda

/-- A node that lacks an operand: what it is, and the operands it already has. -/
inductive Hole where
  | operand (op : UnaryOp)
  | left (op : BinaryOp)
  | right (op : BinaryOp) (l : Expr)
  | body (x : VarId)
  | condition
  | thenBranch (c : Expr)
  | elseBranch (c t : Expr)
  deriving DecidableEq

namespace Hole

/-- The token that opened the node. -/
def token : Hole → Token
  | operand op => .unary op
  | left op | right op _ => .binary op
  | body x => .lambda x
  | condition | thenBranch _ | elseBranch _ _ => .ite

/-- The node with its next operand: a whole expression, or the next hole. -/
def fill : Hole → Expr → Expr ⊕ Hole
  | operand op, e => .inl (.unary op e)
  | left op, e => .inr (right op e)
  | right op l, e => .inl (.binary op l e)
  | body x, e => .inl (.lambda x e)
  | condition, e => .inr (thenBranch e)
  | thenBranch c, e => .inr (elseBranch c e)
  | elseBranch c t, e => .inl (.ite c t e)

end Hole

/-- The node that a token begins: a whole expression, or a node without its operands. -/
def Token.begin : Token → Expr ⊕ Hole
  | literal s => .inl (.literal s)
  | var x => .inl (.var x)
  | unary op => .inr (.operand op)
  | binary op => .inr (.left op)
  | lambda x => .inr (.body x)
  | ite => .inr .condition

/-- A node that lacks an operand, and the position of its token. -/
structure OpenNode where
  index : Nat
  hole : Hole
  deriving DecidableEq

/-- Where reading stands after an expression was completed: at its end, or inside the
innermost of some open nodes. -/
inductive Progress where
  | complete (e : Expr)
  | inside (node : OpenNode) (outer : List OpenNode)
  deriving DecidableEq

/-- Fills the innermost hole with an expression, and goes on outwards as long as that
completes a node. -/
def Progress.ofExpr (e : Expr) : List OpenNode → Progress
  | [] => complete e
  | node :: outer =>
      match node.hole.fill e with
      | .inl parent => ofExpr parent outer
      | .inr hole => inside ⟨node.index, hole⟩ outer

/-- Why a sequence of tokens is no expression. -/
inductive BuildError where
  | emptyInput
  /-- The tokens end at `index`, where `parent`, the token at `parentIndex`, still wants an
  operand. -/
  | truncated (parent : Token) (parentIndex index : Nat)
  deriving DecidableEq

namespace BuildError

/-- What a reader is told. -/
def message : BuildError → String
  | emptyInput => "empty input: expected an expression"
  | truncated parent parentIndex index =>
      "empty input: " ++ parent.display ++ " at token " ++ parentIndex.repr ++
        " is missing an operand at token " ++ index.repr

/-- The code that a building error is reported under. -/
def code : BuildError → ErrorCode
  | emptyInput => .emptyInput
  | truncated _ _ _ => .truncatedInput

/-- The position of the token to blame, if there is one. -/
def parentIndex? : BuildError → Option Nat
  | emptyInput => none
  | truncated _ parentIndex _ => some parentIndex

/-- The error of a sequence that ends at `position` with nodes still open. -/
def atEnd (position : Nat) : List OpenNode → BuildError
  | [] => emptyInput
  | node :: _ => truncated node.hole.token node.index position

end BuildError

/-- Reads one expression from tokens that begin at `position`, inside the open nodes
`outer`, and gives it, or why there is none, with the position behind the tokens that were
taken. -/
def readFrom (position : Nat) (outer : List OpenNode) :
    List Token → Except BuildError Expr × Nat
  | [] => (.error (.atEnd position outer), position)
  | t :: ts =>
      match t.begin with
      | .inl e =>
          match Progress.ofExpr e outer with
          | .complete whole => (.ok whole, position + 1)
          | .inside node outer' => readFrom (position + 1) (node :: outer') ts
      | .inr hole => readFrom (position + 1) (⟨position, hole⟩ :: outer) ts

/-- The expression at the head of a sequence of tokens. -/
def Expr.ofTokens (ts : List Token) : Except BuildError Expr :=
  (readFrom 0 [] ts).1

/-! ## The law of the reader -/

/-- What remains to be done at `position` once an expression is complete there. -/
def resumeFrom (position : Nat) (ts : List Token) :
    Progress → Except BuildError Expr × Nat
  | .complete whole => (.ok whole, position)
  | .inside node outer => readFrom position (node :: outer) ts

theorem readFrom_leaf {t : Token} {e : Expr} (h : t.begin = .inl e)
    (position : Nat) (outer : List OpenNode) (ts : List Token) :
    readFrom position outer (t :: ts) =
      resumeFrom (position + 1) ts (Progress.ofExpr e outer) := by
  simp only [readFrom, h]
  cases Progress.ofExpr e outer <;> rfl

theorem readFrom_open {t : Token} {hole : Hole} (h : t.begin = .inr hole)
    (position : Nat) (outer : List OpenNode) (ts : List Token) :
    readFrom position outer (t :: ts) =
      readFrom (position + 1) (⟨position, hole⟩ :: outer) ts := by
  rw [readFrom, h]

theorem ofExpr_cons_inl {node : OpenNode} {e parent : Expr}
    (h : node.hole.fill e = .inl parent) (outer : List OpenNode) :
    Progress.ofExpr e (node :: outer) = Progress.ofExpr parent outer := by
  rw [Progress.ofExpr, h]

theorem ofExpr_cons_inr {node : OpenNode} {e : Expr} {hole : Hole}
    (h : node.hole.fill e = .inr hole) (outer : List OpenNode) :
    Progress.ofExpr e (node :: outer) = .inside ⟨node.index, hole⟩ outer := by
  rw [Progress.ofExpr, h]

/-- Reading the tokens of a tree completes the tree, in any context. -/
theorem readFrom_tokens (e : Expr) (position : Nat) (outer : List OpenNode)
    (ts : List Token) :
    readFrom position outer (e.tokens ++ ts) =
      resumeFrom (position + e.size) ts (Progress.ofExpr e outer) := by
  induction e generalizing position outer ts with
  | literal s => exact readFrom_leaf rfl ..
  | var x => exact readFrom_leaf rfl ..
  | unary op e ih =>
    rw [Expr.tokens, List.cons_append, readFrom_open rfl, ih, ofExpr_cons_inl rfl]
    congr 1; simp only [Expr.size]; omega
  | lambda x body ih =>
    rw [Expr.tokens, List.cons_append, readFrom_open rfl, ih, ofExpr_cons_inl rfl]
    congr 1; simp only [Expr.size]; omega
  | binary op l r ihl ihr =>
    rw [Expr.tokens, List.cons_append, List.append_assoc, readFrom_open rfl, ihl,
      ofExpr_cons_inr rfl, resumeFrom, ihr, ofExpr_cons_inl rfl]
    congr 1; simp only [Expr.size]; omega
  | ite c t e ihc iht ihe =>
    rw [Expr.tokens, List.cons_append, List.append_assoc, List.append_assoc,
      readFrom_open rfl, ihc, ofExpr_cons_inr rfl, resumeFrom, iht, ofExpr_cons_inr rfl,
      resumeFrom, ihe, ofExpr_cons_inl rfl]
    congr 1; simp only [Expr.size]; omega

@[simp] theorem Expr.ofTokens_tokens_append (e : Expr) (ts : List Token) :
    Expr.ofTokens (e.tokens ++ ts) = .ok e := by
  rw [Expr.ofTokens, readFrom_tokens]; rfl

end WireLambda
