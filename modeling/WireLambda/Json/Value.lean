import WireLambda.Json.Lexeme

/-!
# JSON values

A `Json` is what a JSON text denotes.  Objects keep their members in the order of the text
and keep repeated ones, since what a repeated member means is for the reader of the object
to say.

`Json.text` writes a value without blanks.  `Json.ofText?` reads a text that holds exactly
one value; it goes through the lexemes once, from left to right, with the arrays and
objects that are still open in a list (`Layer`), innermost first.
-/

namespace WireLambda

/-- A JSON value.  A number has a value only if it is written as a natural number, and a
string has a text only if it denotes one. -/
inductive Json where
  | null
  | bool (b : Bool)
  | number (n : Option Nat)
  | string (s : Option String)
  | array (items : List Json)
  | object (members : List (Option String × Json))

namespace Json

/-! ## Writing -/

mutual

/-- The lexemes of a value. -/
def toLexemes : Json → List Lexeme
  | null => [.null]
  | bool b => [.bool b]
  | number n => [.number n]
  | string s => [.string s]
  | array [] => [.openArray, .closeArray]
  | array (j :: js) => .openArray :: (toLexemes j ++ itemLexemes js)
  | object [] => [.openObject, .closeObject]
  | object ((k, j) :: ms) =>
      .openObject :: .string k :: .colon :: (toLexemes j ++ memberLexemes ms)

/-- The lexemes of an array behind its first item. -/
def itemLexemes : List Json → List Lexeme
  | [] => [.closeArray]
  | j :: js => .comma :: (toLexemes j ++ itemLexemes js)

/-- The lexemes of an object behind its first member. -/
def memberLexemes : List (Option String × Json) → List Lexeme
  | [] => [.closeObject]
  | (k, j) :: ms => .comma :: .string k :: .colon :: (toLexemes j ++ memberLexemes ms)

end

/-- The text of a value, without blanks. -/
def text (j : Json) : String := String.ofList (j.toLexemes.flatMap Lexeme.chars)

/-! ## Reading -/

/-- An array or object that is still open, with what was read of it so far, last first. -/
inductive Layer where
  | array (items : List Json)
  /-- The value of the member `key` is about to be read. -/
  | object (members : List (Option String × Json)) (key : Option String)

mutual

/-- Reads a value and all that encloses it from lexemes that begin with that value. -/
def readValue (layers : List Layer) : List Lexeme → Option Json
  | [] => none
  | .null :: ls => readAfter null layers ls
  | .bool b :: ls => readAfter (bool b) layers ls
  | .number n :: ls => readAfter (number n) layers ls
  | .string s :: ls => readAfter (string s) layers ls
  | .openArray :: .closeArray :: ls => readAfter (array []) layers ls
  | .openArray :: ls => readValue (.array [] :: layers) ls
  | .openObject :: .closeObject :: ls => readAfter (object []) layers ls
  | .openObject :: .string key :: .colon :: ls => readValue (.object [] key :: layers) ls
  | _ => none

/-- Reads all that encloses the value `j` from the lexemes behind it. -/
def readAfter (j : Json) : List Layer → List Lexeme → Option Json
  | [], [] => some j
  | .array items :: layers, .comma :: ls => readValue (.array (j :: items) :: layers) ls
  | .array items :: layers, .closeArray :: ls =>
      readAfter (array (j :: items).reverse) layers ls
  | .object members key :: layers, .comma :: .string key' :: .colon :: ls =>
      readValue (.object ((key, j) :: members) key' :: layers) ls
  | .object members key :: layers, .closeObject :: ls =>
      readAfter (object ((key, j) :: members).reverse) layers ls
  | _, _ => none

end

/-- The value of a text that holds one value and nothing else but blanks. -/
def ofText? (s : String) : Option Json := (lexemes s.toList).bind (readValue [])

end Json

end WireLambda
