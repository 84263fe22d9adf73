import WireLambda.Operator
import WireLambda.Scalar
import WireLambda.Text.Quoted
import WireLambda.VarId

/-!
# Tokens

A program is a sequence of tokens in prefix order: a token says what kind of node it is
and how many operands follow it (`Token.arity`).  Literals and variables take none, a
lambda takes its body, and a conditional takes the condition and its two branches.

A token is written as one indicator character followed by a body; `Token.Wire` reads and
writes that form.  `Token.display` is how messages name a token.
-/

namespace WireLambda

/-- One node of a program, without its operands. -/
inductive Token where
  | literal (s : Scalar)
  | unary (op : UnaryOp)
  | binary (op : BinaryOp)
  | ite
  | lambda (x : VarId)
  | var (x : VarId)
  deriving DecidableEq

/-- What kind of token a written token is: the meaning of its first character. -/
inductive Indicator where
  | truth | falsity | integer | text | unary | binary | conditional | lambda | var
  deriving DecidableEq

namespace Indicator

/-- The indicators, in the order of their table. -/
def all : List Indicator :=
  [truth, falsity, integer, text, unary, binary, conditional, lambda, var]

/-- The character of an indicator. -/
def toChar : Indicator → Char
  | truth => 'T'
  | falsity => 'F'
  | integer => 'I'
  | text => 'S'
  | unary => 'U'
  | binary => 'B'
  | conditional => '?'
  | lambda => 'L'
  | var => 'v'

/-- The indicator that a character is. -/
def ofChar? (c : Char) : Option Indicator := all.find? (·.toChar == c)

@[simp] theorem ofChar?_toChar (i : Indicator) : ofChar? i.toChar = some i := by
  cases i <;> decide

theorem toChar_of_ofChar? {c : Char} {i : Indicator} (h : ofChar? c = some i) :
    i.toChar = c := by
  simpa using List.find?_some h

end Indicator

namespace Token

/-- The number of operands that follow a token. -/
def arity : Token → Nat
  | literal _ | var _ => 0
  | unary _ | lambda _ => 1
  | binary _ => 2
  | ite => 3

/-- The indicator that opens the written form of a token. -/
def indicator : Token → Indicator
  | literal (.bool true) => .truth
  | literal (.bool false) => .falsity
  | literal (.int _) => .integer
  | literal (.str _) => .text
  | unary _ => .unary
  | binary _ => .binary
  | ite => .conditional
  | lambda _ => .lambda
  | var _ => .var

/-- How messages name a token: a text literal is quoted, an operator goes by its name. -/
def display : Token → String
  | literal (.str s) => Text.quoteText s
  | literal s => s.display
  | unary op => "unary " ++ op.name
  | binary op => "binary " ++ op.name
  | ite => "if"
  | lambda x => "lambda " ++ x.display
  | var x => x.display

end Token

end WireLambda
