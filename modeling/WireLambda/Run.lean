import WireLambda.Eval.Evaluator
import WireLambda.Expr.Cursor
import WireLambda.Lexed

/-!
# Running a source text

A run lexes a source, builds the tree of its first expression and evaluates it.  Each
stage is entered only if the one before it had no errors, and a run that fails says why in
the `Diagnostics` of the stage that failed: all bad tokens when lexing fails, and one
report otherwise.  Nothing is evaluated, and so no gas is used, unless a tree was built.

A run goes on for ever if the evaluation does, which only happens under the largest of all limits
(`Run.isSome_ofSource`).  Under the default limits it comes to a result (`run`).

A `RunResult` therefore has one of two shapes, a scalar or diagnostics, together with the
gas used; `value?`, `errors` and `success` are three views of that.  A run whose source
goes on after the program also says what it left over, which is no error.
-/

namespace WireLambda

/-- The report on a sequence of tokens that is no program, located at the token to blame
if there is one. -/
def BuildError.report (program source : String) (tokens : List LocatedToken)
    (e : BuildError) : Report :=
  let r := Report.unlocated program e.code e.message
  match e.parentIndex?.bind (tokens[·]?) with
  | none => r
  | some t =>
      match Source.text? source t.span with
      | none => r
      | some text => r.located t.span text

/-- The report on an evaluation that failed. -/
def EvalError.report (program : String) (e : EvalError) : Report :=
  .unlocated program e.code e.message

/-- What a run comes to. -/
structure RunResult where
  outcome : Except Diagnostics Scalar
  gasUsed : UInt64

namespace RunResult

/-- Whether the run gave a value. -/
def success (r : RunResult) : Bool := r.outcome.isOk

/-- The value that the run gave. -/
def value? (r : RunResult) : Option Scalar := r.outcome.toOption

/-- The errors of the run; none if it gave a value. -/
def errors (r : RunResult) : Diagnostics :=
  match r.outcome with
  | .ok _ => .empty
  | .error d => d

end RunResult

/-- A run and what it left over of its source. -/
structure Run where
  result : RunResult
  leftover : Option Leftover

namespace Run

/-- A run that failed before anything was evaluated. -/
def failed (d : Diagnostics) : Run := ⟨⟨.error d, 0⟩, none⟩

/-- The outcome of a run whose program was evaluated. -/
def outcomeOf (program : String) : Except EvalError Value → Except Diagnostics Scalar
  | .error e => .error (.single (e.report program))
  | .ok (.scalar s) => .ok s
  | .ok (.deferred _) =>
      .error (.single
        (.unlocated program .typeMismatch "program reduced to an unevaluated expression"))

/-- A run whose program was evaluated, with that answer. -/
def ofAnswer (program : String) (leftover : Option Leftover)
    (answer : Except EvalError Value × Evaluator) : Run :=
  ⟨⟨outcomeOf program answer.1, answer.2.gasUsed⟩, leftover⟩

/-- Evaluates the program at the head of a sequence of tokens. -/
def ofTokens (program source : String) (limits : Limits) (tokens : List LocatedToken) :
    Option Run :=
  match (Cursor.start (tokens.map (·.token))).readProgram with
  | .error e => some (failed (.single (e.report program source tokens)))
  | .ok (e, leftover) => ((Evaluator.new limits).evaluate e).map (ofAnswer program leftover)

/-- Runs a source text. -/
def ofSource (program source : String) (limits : Limits) : Option Run :=
  let lexed := Lexed.ofSource program source
  if lexed.diagnostics.hasErrors then some (failed lexed.diagnostics)
  else ofTokens program source limits lexed.tokens

/-- Under any limit but the largest word every run comes to an end. -/
theorem isSome_ofSource {limits : Limits} (h : limits.gasLimit.toNat + 1 < UInt64.size)
    (program source : String) : (ofSource program source limits).isSome = true := by
  simp only [ofSource, ofTokens]
  split
  · rfl
  · split
    · rfl
    · rw [Option.isSome_map]
      exact Evaluator.isSome_run h _

end Run

/-- Runs the source text of a program under limits. -/
def runWithLimits (program source : String) (limits : Limits) : Option RunResult :=
  (Run.ofSource program source limits).map (·.result)

theorem isSome_runWithLimits {limits : Limits} (h : limits.gasLimit.toNat + 1 < UInt64.size)
    (program source : String) : (runWithLimits program source limits).isSome = true := by
  rw [runWithLimits, Option.isSome_map]
  exact Run.isSome_ofSource h program source

/-- Runs the source text of a program under the default limits. -/
def run (program source : String) : RunResult :=
  (runWithLimits program source .default).get
    (@isSome_runWithLimits .default (of_decide_eq_true rfl) program source)

theorem runWithLimits_default (program source : String) :
    runWithLimits program source .default = some (run program source) :=
  (Option.some_get _).symm

theorem run_eq_iff {program source : String} {result : RunResult} :
    run program source = result ↔ runWithLimits program source .default = some result := by
  rw [runWithLimits_default, Option.some_inj]

/-! ## Sources without a name -/

/-- The name of a program that was given as a text only. -/
def inlineProgram : String := "<inline>"

/-- The value of a source text, or the first of its errors. -/
def evaluateSource (source : String) : Except Report Scalar :=
  match (run inlineProgram source).outcome with
  | .ok s => .ok s
  | .error d =>
      .error (d.first?.getD (.unlocated inlineProgram .emptyInput "program produced no value"))

/-! ## Messages -/

/-- The text that a received source stands for: its value, shown. -/
def decodeResponse (body : String) : Except Report String :=
  (evaluateSource body).map Scalar.display

/-- The source that stands for a text. -/
def encodeMessage (message : String) : Except Base94.CodecError String :=
  (Base94.encodeString message).map ("S" ++ ·)

/-- The version of the language tools. -/
def version : String := "0.1.0"

end WireLambda
