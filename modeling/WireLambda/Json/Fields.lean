import WireLambda.Json.Value

/-!
# Records in JSON

A record is written as an object with its fields in a fixed order.  It is read from an
object with the fields in any order, or from an array with the values of the fields in the
fixed order.  In an object, members that are no field are passed over, but a field may not
be given twice, and every key has to denote a text.

`fields?` reads a record as far as this goes: it gives for each field the value it has, if
it is given at all.  What a field may hold, and whether it may be missing, is for the
record to say.
-/

namespace WireLambda
namespace Json

/-- A text, as a value. -/
def ofString (s : String) : Json := string (some s)

/-- A natural number, as a value. -/
def ofNat (n : Nat) : Json := number (some n)

/-- An object with the given fields. -/
def ofFields (fields : List (String × Json)) : Json :=
  object (fields.map fun (name, j) => (some name, j))

/-- The value that an object gives to a field: nothing if there is none, and no answer if
there are several. -/
def field? (members : List (Option String × Json)) (name : String) : Option (Option Json) :=
  match members.filter (·.1 == some name) with
  | [] => some none
  | [(_, j)] => some (some j)
  | _ => none

/-- The values of the fields `names` of a record.  As an array a record has at least
`least` values, and the fields behind the last value are missing. -/
def fields? (names : List String) (least : Nat) : Json → Option (List (Option Json))
  | array items =>
      if least ≤ items.length ∧ items.length ≤ names.length then
        some ((List.range names.length).map fun i => items[i]?)
      else none
  | object members =>
      if members.all (·.1.isSome) then names.mapM (field? members) else none
  | _ => none

/-- The text that a value is. -/
def toString? : Json → Option String
  | string s => s
  | _ => none

/-- The truth value that a value is. -/
def toBool? : Json → Option Bool
  | bool b => some b
  | _ => none

/-- The natural number below `bound` that a value is. -/
def toNatBelow? (bound : Nat) : Json → Option Nat
  | number (some n) => if n < bound then some n else none
  | _ => none

/-- What the 64-bit word is that a value is. -/
def toWord? (j : Json) : Option Nat := j.toNatBelow? UInt64.size

/-- The name that a value selects: a text, or an object with the name as its only key and
nothing to say about it. -/
def toName? : Json → Option String
  | string s => s
  | object [(key, null)] => key
  | _ => none

/-- What an optional field holds: nothing if it is missing or null. -/
def optional? {α : Type} (read : Json → Option α) : Option Json → Option (Option α)
  | none => some none
  | some null => some none
  | some j => (read j).map some

end Json
end WireLambda
