/-!
# Operators

Each operator has a one-character symbol on the wire, a name for messages, and a phrase
for the operands it wants.  The symbols of one arity are distinct
(`UnaryOp.ofSymbol?_symbol`, `BinaryOp.ofSymbol?_symbol`), so a symbol determines its
operator; `-` and `$` are symbols of both arities.

`BinaryOp.apply` is listed with the binary operators because it is spelled like them.  It
is the only one that does not compute on the values of its two operands.
-/

namespace WireLambda

/-- The operators with one operand. -/
inductive UnaryOp where
  | negate
  | not
  | strToInt
  | intToStr
  deriving DecidableEq

/-- The operators with two operands. -/
inductive BinaryOp where
  | add | sub | mul | div | mod
  | lt | gt | eq
  | or | and
  | concat | take | drop
  | apply
  deriving DecidableEq

namespace UnaryOp

/-- The unary operators, in the order of their table. -/
def all : List UnaryOp := [negate, not, strToInt, intToStr]

/-- The character that stands for an operator on the wire. -/
def symbol : UnaryOp → Char
  | negate => '-'
  | not => '!'
  | strToInt => '#'
  | intToStr => '$'

/-- The operator that a character stands for. -/
def ofSymbol? (c : Char) : Option UnaryOp := all.find? (·.symbol == c)

/-- The name of an operator in messages. -/
def name : UnaryOp → String
  | negate => "negate"
  | not => "not"
  | strToInt => "string-to-int"
  | intToStr => "int-to-string"

/-- What an operator wants to be given. -/
def expected : UnaryOp → String
  | negate | intToStr => "integer operand"
  | not => "boolean operand"
  | strToInt => "string operand"

@[simp] theorem ofSymbol?_symbol (op : UnaryOp) : ofSymbol? op.symbol = some op := by
  cases op <;> decide

theorem symbol_of_ofSymbol? {c : Char} {op : UnaryOp} (h : ofSymbol? c = some op) :
    op.symbol = c := by
  simpa using List.find?_some h

end UnaryOp

namespace BinaryOp

/-- The binary operators, in the order of their table. -/
def all : List BinaryOp :=
  [add, sub, mul, div, mod, lt, gt, eq, or, and, concat, take, drop, apply]

/-- The character that stands for an operator on the wire. -/
def symbol : BinaryOp → Char
  | add => '+'
  | sub => '-'
  | mul => '*'
  | div => '/'
  | mod => '%'
  | lt => '<'
  | gt => '>'
  | eq => '='
  | or => '|'
  | and => '&'
  | concat => '.'
  | take => 'T'
  | drop => 'D'
  | apply => '$'

/-- The operator that a character stands for. -/
def ofSymbol? (c : Char) : Option BinaryOp := all.find? (·.symbol == c)

/-- The name of an operator in messages. -/
def name : BinaryOp → String
  | add => "add"
  | sub => "sub"
  | mul => "mul"
  | div => "div"
  | mod => "mod"
  | lt => "lt"
  | gt => "gt"
  | eq => "eq"
  | or => "or"
  | and => "and"
  | concat => "concat"
  | take => "take"
  | drop => "drop"
  | apply => "apply"

/-- What an operator wants to be given. -/
def expected : BinaryOp → String
  | add | sub | mul | div | mod | lt | gt => "integer operands"
  | eq => "matching scalar operands"
  | or | and => "boolean operands"
  | concat => "string operands"
  | take | drop => "integer and string operands"
  | apply => "a lambda on the left"

@[simp] theorem ofSymbol?_symbol (op : BinaryOp) : ofSymbol? op.symbol = some op := by
  cases op <;> decide

theorem symbol_of_ofSymbol? {c : Char} {op : BinaryOp} (h : ofSymbol? c = some op) :
    op.symbol = c := by
  simpa using List.find?_some h

end BinaryOp

end WireLambda
