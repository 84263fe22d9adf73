import WireLambda.Json.Literal

/-!
# Lexemes of JSON

A JSON text is a sequence of lexemes with blanks between them: six marks, string literals,
and bare words, which are the three names and the numbers.

Only natural numbers matter to this library.  A number that is not written as one (with a
sign, a fraction or an exponent) is still a number, and a text that holds it may be well
formed, so it is kept as a number without a value.  The same goes for a string literal
that denotes no text.
-/

namespace WireLambda
namespace Json

/-- One lexeme of a JSON text. -/
inductive Lexeme where
  | openArray | closeArray | openObject | closeObject | comma | colon
  | null
  | bool (b : Bool)
  /-- A number, with its value if it is written as a natural number. -/
  | number (n : Option Nat)
  /-- A string literal, with its text if it denotes one. -/
  | string (s : Option String)
  deriving DecidableEq

/-- The characters that may stand between lexemes. -/
def isBlank (c : Char) : Bool := c == ' ' || c == '\n' || c == '\t' || c == '\x0d'

/-- The lexeme that a mark is. -/
def mark? (c : Char) : Option Lexeme :=
  if c = '[' then some .openArray
  else if c = ']' then some .closeArray
  else if c = '\x7b' then some .openObject
  else if c = '\x7d' then some .closeObject
  else if c = ',' then some .comma
  else if c = ':' then some .colon
  else none

/-- The characters that bare words are made of. -/
def isWordChar (c : Char) : Bool := c.isAlphanum || c == '+' || c == '-' || c == '.'

/-! ## Numbers -/

/-- Whether a run of digits may be the integral part of a number: it is not empty, and
begins with zero only if it is zero. -/
def isIntegral : List Char → Bool
  | [] => false
  | ['0'] => true
  | c :: _ => c != '0'

/-- Whether a run of characters is one or more digits. -/
def areDigits (cs : List Char) : Bool := !cs.isEmpty && cs.all Char.isDigit

/-- A run of characters without a sign in front. -/
def dropSign (cs : List Char) : List Char :=
  match cs with
  | c :: rest => if c == '+' || c == '-' then rest else cs
  | [] => []

/-- Whether a run of characters is an exponent, or empty. -/
def isExponent : List Char → Bool
  | [] => true
  | c :: rest => (c == 'e' || c == 'E') && areDigits (dropSign rest)

/-- Whether a run of characters is what may follow the integral part of a number. -/
def isFractionAndExponent : List Char → Bool
  | '.' :: rest =>
      areDigits (rest.takeWhile Char.isDigit) && isExponent (rest.dropWhile Char.isDigit)
  | cs => isExponent cs

/-- Whether a run of characters is a number. -/
def isNumber (cs : List Char) : Bool :=
  let unsigned := match cs with
    | '-' :: rest => rest
    | _ => cs
  isIntegral (unsigned.takeWhile Char.isDigit) &&
    isFractionAndExponent (unsigned.dropWhile Char.isDigit)

/-- The natural number that a run of digits spells in decimal. -/
def decimalValue (cs : List Char) : Nat := cs.foldl (fun n c => n * 10 + (c.toNat - 48)) 0

/-- The lexeme that a bare word is. -/
def word? (cs : List Char) : Option Lexeme :=
  if cs = ['t', 'r', 'u', 'e'] then some (.bool true)
  else if cs = ['f', 'a', 'l', 's', 'e'] then some (.bool false)
  else if cs = ['n', 'u', 'l', 'l'] then some .null
  else if cs.all Char.isDigit && isIntegral cs then some (.number (some (decimalValue cs)))
  else if isNumber cs then some (.number none)
  else none

/-! ## Texts and lexemes -/

/-- The lexemes of a text, if it consists of lexemes and blanks. -/
def lexemes : List Char → Option (List Lexeme)
  | [] => some []
  | c :: cs =>
      if isBlank c then lexemes cs
      else if c = '"' then
        match _h : Literal.decode cs with
        | none => none
        | some (s, rest) => (lexemes rest).map (.string s :: ·)
      else
        match mark? c with
        | some mark => (lexemes cs).map (mark :: ·)
        | none =>
            match word? (c :: cs.takeWhile isWordChar) with
            | none => none
            | some word => (lexemes (cs.dropWhile isWordChar)).map (word :: ·)
termination_by cs => cs.length
decreasing_by
  · exact Nat.lt_succ_self _
  · exact Nat.lt_succ_of_lt (Literal.length_lt_of_decode _h)
  · exact Nat.lt_succ_self _
  · exact Nat.lt_succ_of_le (List.dropWhile_suffix _).length_le

namespace Lexeme

/-- How a lexeme is written.  A literal without a text is written as half of a surrogate
pair, and a number that is not natural as `-0`. -/
def chars : Lexeme → List Char
  | openArray => ['[']
  | closeArray => [']']
  | openObject => ['\x7b']
  | closeObject => ['\x7d']
  | comma => [',']
  | colon => [':']
  | null => ['n', 'u', 'l', 'l']
  | bool true => ['t', 'r', 'u', 'e']
  | bool false => ['f', 'a', 'l', 's', 'e']
  | number (some n) => Nat.toDigits 10 n
  | number none => ['-', '0']
  | string (some s) => '"' :: Literal.encode s.toList ++ ['"']
  | string none => ['"', '\\', 'u', 'd', '8', '0', '0', '"']

end Lexeme

end Json
end WireLambda
