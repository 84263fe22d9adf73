import WireLambda.Json.Fields
import WireLambda.Run
import WireLambda.Text.Decimal

/-!
# Results and errors in JSON

Everything that a run comes to can be written as a JSON value, and all of it but the run
itself can be read back.

* A scalar is an object with a type and a value; an integer is written as a text, so that
  its size does not matter.
* A report leaves its place and its token out where it has none.
* A run is written with the value it gave, or null, and with its errors.

Reading takes a record apart with `Json.fields?`.  What is read is taken as it stands: the
stage of a report need not be the one of its code, and the number of errors in
`Diagnostics` need not be that of the errors given.
-/

namespace WireLambda

namespace Scalar

/-- A scalar as a tagged value. -/
def toJson : Scalar → Json
  | .bool b => .ofFields [("type", .ofString "bool"), ("value", .bool b)]
  | .int n => .ofFields [("type", .ofString "int"), ("value", .ofString n.repr)]
  | .str s => .ofFields [("type", .ofString "string"), ("value", .ofString s)]

/-- The scalar of a type that a value stands for. -/
def ofTagged? (type : String) (value : Json) : Option Scalar :=
  if type = "bool" then value.toBool?.map .bool
  else if type = "int" then (value.toString?.bind Text.readInt?).map .int
  else if type = "string" then value.toString?.map .str
  else none

/-- The scalar that a JSON value is.  The type is given by a text; only as a field of an
object may it be given in the long form of a name. -/
def ofJson? : Json → Option Scalar
  | .array [type, value] => type.toString?.bind fun name => ofTagged? name value
  | .object members =>
      match (Json.object members).fields? ["type", "value"] 2 with
      | some [some type, some value] => type.toName?.bind fun name => ofTagged? name value
      | _ => none
  | _ => none

end Scalar

namespace Span

/-- A span as a record. -/
def toJson (s : Span) : Json :=
  .ofFields [("index", .ofNat s.index), ("start", .ofNat s.start), ("end", .ofNat s.stop)]

/-- The span that a JSON value is. -/
def ofJson? (j : Json) : Option Span :=
  match j.fields? ["index", "start", "end"] 3 with
  | some [some index, some start, some stop] => do
      return ⟨← index.toWord?, ← start.toWord?, ← stop.toWord?⟩
  | _ => none

end Span

namespace ErrorCode

/-- A code as a number. -/
def toJson (code : ErrorCode) : Json := .ofNat code.value.toNat

/-- The code that a JSON value is. -/
def ofJson? (j : Json) : Option ErrorCode :=
  (j.toNatBelow? UInt16.size).map fun n => ⟨UInt16.ofNat n⟩

end ErrorCode

namespace Category

/-- A stage as its name. -/
def toJson (c : Category) : Json := .ofString c.name

/-- The stages. -/
def all : List Category := [decode, build, eval]

/-- The stage that a JSON value is. -/
def ofJson? (j : Json) : Option Category :=
  j.toName?.bind fun name => all.find? (·.name == name)

end Category

namespace Report

/-- A report as a record. -/
def toJson (r : Report) : Json :=
  .ofFields <|
    [("program", .ofString r.program), ("code", r.code.toJson),
      ("category", r.category.toJson), ("message", .ofString r.message)] ++
    (r.span.map fun span => ("span", span.toJson)).toList ++
    (r.token.map fun token => ("token", .ofString token)).toList

/-- The report that a JSON value is. -/
def ofJson? (j : Json) : Option Report :=
  match j.fields? ["program", "code", "category", "message", "span", "token"] 6 with
  | some [some program, some code, some category, some message, span, token] => do
      return ⟨← program.toString?, ← ErrorCode.ofJson? code, ← Category.ofJson? category,
        ← message.toString?, ← Json.optional? Span.ofJson? span,
        ← Json.optional? Json.toString? token⟩
  | _ => none

end Report

namespace Diagnostics

/-- Diagnostics as a record. -/
def toJson (d : Diagnostics) : Json :=
  .ofFields [("errors", .array (d.stored.map Report.toJson)), ("total_errors", .ofNat d.total)]

/-- The diagnostics that a JSON value is. -/
def ofJson? (j : Json) : Option Diagnostics :=
  match j.fields? ["errors", "total_errors"] 2 with
  | some [some (.array items), some total] => do
      return ⟨← items.mapM Report.ofJson?, ← total.toWord?⟩
  | _ => none

end Diagnostics

namespace Limits

/-- The limits that a JSON value is; a limit that is not given is the default one. -/
def ofJson? (j : Json) : Option Limits :=
  match j.fields? ["gas_limit"] 0 with
  | some [none] => some .default
  | some [some gasLimit] => gasLimit.toWord?.map fun n => ⟨UInt64.ofNat n⟩
  | _ => none

end Limits

namespace RunResult

/-- The result of a run as a record. -/
def toJson (r : RunResult) : Json :=
  .ofFields [("success", .bool r.success), ("value", (r.value?.map Scalar.toJson).getD .null),
    ("errors", r.errors.toJson), ("gas_used", .ofNat r.gasUsed.toNat)]

end RunResult

/-- The text of the result of a run. -/
def runJson (program source : String) : String := (run program source).toJson.text

end WireLambda
