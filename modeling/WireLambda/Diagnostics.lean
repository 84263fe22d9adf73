import WireLambda.Source
import WireLambda.Text.Quoted

/-!
# Error reports

What a user of the library is given when a program fails is a list of `Report`s.  A
report names the program, carries a numeric code, the stage that failed, and a message;
if the error belongs to one token of the source it also carries the token and its place.

`Diagnostics` collects reports.  A source can hold any number of bad tokens, so only the
first `maxStored` reports are kept, while all of them are counted.
-/

namespace WireLambda

/-- The number by which an error is known. -/
structure ErrorCode where
  value : UInt16
  deriving DecidableEq

/-- The stage of a run that failed. -/
inductive Category where
  | decode
  | build
  | eval
  deriving DecidableEq

/-- The name of a stage. -/
def Category.name : Category → String
  | decode => "decode"
  | build => "build"
  | eval => "eval"

namespace ErrorCode

def unhandledIndicator : ErrorCode := ⟨100⟩
def unrecognizedOperator : ErrorCode := ⟨101⟩
def malformedBody : ErrorCode := ⟨102⟩
def emptyToken : ErrorCode := ⟨103⟩
def idOutOfRange : ErrorCode := ⟨104⟩

def emptyInput : ErrorCode := ⟨200⟩
def truncatedInput : ErrorCode := ⟨201⟩

def unboundVariable : ErrorCode := ⟨300⟩
def typeMismatch : ErrorCode := ⟨301⟩
def stackUnderflow : ErrorCode := ⟨302⟩
def divisionByZero : ErrorCode := ⟨303⟩
def gasExhausted : ErrorCode := ⟨304⟩
def conversionFailed : ErrorCode := ⟨305⟩

/-- The stage that an error code belongs to: the codes from 100 to 199 are those of
decoding, the ones from 200 to 299 those of building, and all others count as those of
evaluation. -/
def category (code : ErrorCode) : Category :=
  if 100 ≤ code.value ∧ code.value ≤ 199 then .decode
  else if 200 ≤ code.value ∧ code.value ≤ 299 then .build
  else .eval

/-- Codes are shown as `E` and the number. -/
def display (code : ErrorCode) : String := "E" ++ code.value.toNat.repr

end ErrorCode

/-- One error of one program. -/
structure Report where
  program : String
  code : ErrorCode
  category : Category
  message : String
  span : Option Span
  token : Option String
  deriving DecidableEq

namespace Report

/-- A report that belongs to no token; its stage is the one of its code. -/
def unlocated (program : String) (code : ErrorCode) (message : String) : Report :=
  ⟨program, code, code.category, message, none, none⟩

/-- The same report, located at a token. -/
def located (r : Report) (span : Span) (token : String) : Report :=
  { r with span := some span, token := some token }

/-- A report on one line.  The place is shown only together with its token. -/
def display (r : Report) : String :=
  let place :=
    match r.span, r.token with
    | some span, some token => span.display ++ " " ++ Text.quoteText token ++ ": "
    | _, _ => ""
  r.program ++ ": " ++ place ++ r.code.display ++ " [" ++ r.category.name ++ "] " ++ r.message

end Report

/-- The first reports of a run, and how many there were in all. -/
structure Diagnostics where
  stored : List Report
  total : Nat
  deriving DecidableEq

namespace Diagnostics

/-- The most reports that are kept. -/
def maxStored : Nat := 20

/-- No errors. -/
def empty : Diagnostics := ⟨[], 0⟩

/-- Counts a report, and keeps it if there is room. -/
def push (d : Diagnostics) (r : Report) : Diagnostics where
  stored := if d.stored.length < maxStored then d.stored ++ [r] else d.stored
  total := d.total + 1

/-- One error. -/
def single (r : Report) : Diagnostics := empty.push r

/-- Whether there was any error. -/
def hasErrors (d : Diagnostics) : Bool := 0 < d.total

/-- The first error. -/
def first? (d : Diagnostics) : Option Report := d.stored.head?

/-- The errors on one line: the first one, and how many others there were. -/
def display (d : Diagnostics) : String :=
  match d.first? with
  | none => "no errors"
  | some r =>
      if d.total = 1 then r.display
      else r.display ++ " (and " ++ (d.total - 1).repr ++ " more)"

@[simp] theorem single_eq (r : Report) : single r = ⟨[r], 1⟩ := rfl

@[simp] theorem total_push (d : Diagnostics) (r : Report) :
    (d.push r).total = d.total + 1 := rfl

theorem stored_push (d : Diagnostics) (r : Report) :
    (d.push r).stored =
      if d.stored.length < maxStored then d.stored ++ [r] else d.stored := rfl

end Diagnostics

end WireLambda
