import WireLambda.Expr.Build

/-!
# Reading one expression after another

A `Cursor` is a position in a sequence of tokens from which expressions are read one at a
time.  Reading moves it behind the tokens that it takes, whether they are an expression or not.

A program is the first expression of its tokens.  Tokens behind it are allowed, but
whoever runs the program is told how many there are (`Leftover`).
-/

namespace WireLambda

/-- A sequence of tokens and a position in it. -/
structure Cursor where
  tokens : List Token
  position : Nat
  deriving DecidableEq

/-- How many tokens a program took, and how many stand behind it. -/
structure Leftover where
  consumed : Nat
  trailing : Nat
  deriving DecidableEq

/-- What the user of a program with leftover tokens is told. -/
def Leftover.message : String := "ignoring tokens after the end of the program"

namespace Cursor

/-- The cursor before the first token. -/
def start (ts : List Token) : Cursor := ⟨ts, 0⟩

/-- The tokens that were not read yet. -/
def remaining (c : Cursor) : List Token := c.tokens.drop c.position

/-- Whether all tokens were read. -/
def atEnd (c : Cursor) : Bool := c.tokens.length ≤ c.position

/-- Reads the next expression, and moves the cursor behind the tokens that were taken. -/
def readExpr (c : Cursor) : Except BuildError Expr × Cursor :=
  let (outcome, position) := readFrom c.position [] c.remaining
  (outcome, { c with position })

/-- Reads the next expression as a program: gives it with what it leaves over, if
anything. -/
def readProgram (c : Cursor) : Except BuildError (Expr × Option Leftover) :=
  match c.readExpr with
  | (.error err, _) => .error err
  | (.ok e, c') =>
      .ok (e, if c'.atEnd then none else some ⟨c'.position, c'.remaining.length⟩)

end Cursor

end WireLambda
