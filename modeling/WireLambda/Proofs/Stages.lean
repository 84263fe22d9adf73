import Mathlib.Logic.ExistsUnique
import WireLambda.Proofs.Lexing
import WireLambda.Proofs.Metering
import WireLambda.Proofs.Truncation

/-!
# The stages of a run

A run goes through three stages and ends in the first one that fails, or with a value.  The
stages come in a fixed order: a bad token counts before all else, even behind the end of the
program, and nothing is evaluated unless a tree was built.  `Run.Course` lists the courses
that a run can take, and `Run.course` says that it takes one of them.

`Run.EndsAt` says what a run shows that has ended in a stage, or with a value.  The stage can be
told from what it shows: it is the category of the first error (`Run.EndsAt.eq_stage`), so a run
ends in one way only.  What holds of every report of a run, however it ended, goes by the cause
of the report (`Run.Cause`).

The gas of an evaluation is counted in 64-bit words.  Under every limit but the largest word there
is room for the visit beyond the limit with which an evaluation is cut off.  Under the largest word
nothing is cut off, and a run ends only if the evaluation ends by itself (`Run.HasRoom`).

The main result is `run_ends_at_one_stage`, and `endless_source_never_ends` is a source that is
run for ever.
-/

namespace WireLambda

/-! ## Courses -/

namespace Run

/-- The courses of a run, with what it comes to. -/
inductive Course (program source : String) (limits : Limits) : Option Run → Prop where
  | decode (h : ¬ Source.Decodes source) :
      Course program source limits (some (failed (Lexed.ofSource program source).diagnostics))
  | build {e : BuildError} (hdecodes : Source.Decodes source)
      (h : built program source = .error e) :
      Course program source limits
        (some (failed (.single (e.report program source (Lexed.ofSource program source).tokens))))
  | eval {tree : Expr} {leftover : Option Leftover} {e : EvalError} {ev : Evaluator}
      (hdecodes : Source.Decodes source) (hbuilt : built program source = .ok (tree, leftover))
      (h : (Evaluator.new limits).evaluate tree = some (.error e, ev)) :
      Course program source limits
        (some ⟨⟨.error (.single (e.report program)), ev.gasUsed⟩, leftover⟩)
  | value {tree : Expr} {leftover : Option Leftover} {s : Scalar} {ev : Evaluator}
      (hdecodes : Source.Decodes source) (hbuilt : built program source = .ok (tree, leftover))
      (h : (Evaluator.new limits).evaluate tree = some (.ok (.scalar s), ev)) :
      Course program source limits (some ⟨⟨.ok s, ev.gasUsed⟩, leftover⟩)
  | endless {tree : Expr} {leftover : Option Leftover}
      (hdecodes : Source.Decodes source) (hbuilt : built program source = .ok (tree, leftover))
      (h : (Evaluator.new limits).evaluate tree = none) : Course program source limits none

/-- A run takes one of the courses. -/
theorem course (program source : String) (limits : Limits) :
    Course program source limits (ofSource program source limits) := by
  by_cases hdecodes : Source.Decodes source
  · have hclean : ¬ (Lexed.ofSource program source).diagnostics.hasErrors = true :=
      Lexed.not_hasErrors_of_decodes hdecodes program
    cases hbuilt : built program source with
    | error e =>
      rw [ofSource_of_built_error hclean hbuilt]
      exact .build hdecodes hbuilt
    | ok p =>
      obtain ⟨tree, leftover⟩ := p
      rw [ofSource_of_built_ok hclean hbuilt]
      cases hanswer : (Evaluator.new limits).evaluate tree with
      | none => exact .endless hdecodes hbuilt hanswer
      | some answer =>
        obtain ⟨outcome, ev⟩ := answer
        cases outcome with
        | error e => exact .eval hdecodes hbuilt hanswer
        | ok v =>
          cases v with
          | scalar s => exact .value hdecodes hbuilt hanswer
          | deferred d => exact absurd hanswer (Evaluator.evaluate_ne_deferred _ ev tree d)
  · rw [ofSource_of_hasErrors (Lexed.hasErrors_ofSource_iff.2 hdecodes)]
    exact .decode hdecodes

/-- What a run comes to, it comes to on one of the courses. -/
theorem exists_course {program source : String} {limits : Limits} {result : RunResult}
    (h : runWithLimits program source limits = some result) :
    ∃ r : Run, r.result = result ∧ Course program source limits (some r) := by
  obtain ⟨r, hr, hresult⟩ := Option.map_eq_some_iff.1 h
  exact ⟨r, hresult, hr ▸ course program source limits⟩

section Course

variable {program source : String} {limits : Limits} {r : Run}

/-- A run without a value has errors, and keeps as many as it can. -/
theorem Course.hasErrors (h : Course program source limits (some r)) {d : Diagnostics}
    (hd : r.result.outcome = .error d) : d.hasErrors = true ∧ d.Capped := by
  cases h with
  | decode hbad =>
    obtain rfl := Except.error.inj hd
    exact ⟨Lexed.hasErrors_ofSource_iff.2 hbad,
      Lexed.capped_ofRawTokens Diagnostics.capped_empty⟩
  | build hdecodes hbuilt =>
    obtain rfl := Except.error.inj hd
    exact ⟨rfl, Diagnostics.capped_single _⟩
  | eval hdecodes hbuilt hanswer =>
    obtain rfl := Except.error.inj hd
    exact ⟨rfl, Diagnostics.capped_single _⟩
  | value hdecodes hbuilt hanswer => cases hd

/-- The value of a run is that of the tree that was built. -/
theorem Course.exists_answer (h : Course program source limits (some r)) {s : Scalar}
    (hs : r.result.value? = some s) :
    ∃ tree leftover ev, built program source = .ok (tree, leftover) ∧
      (Evaluator.new limits).evaluate tree = some (.ok (.scalar s), ev) := by
  cases h with
  | decode hbad => cases hs
  | build hdecodes hbuilt => cases hs
  | eval hdecodes hbuilt hanswer => cases hs
  | value hdecodes hbuilt hanswer =>
    obtain rfl := Option.some.inj hs
    exact ⟨_, _, _, hbuilt, hanswer⟩

end Course

/-- **Runs without an end.**  A run comes to nothing exactly under the largest word as a limit, for
a clean source that builds a tree whose evaluation does not end by the rules. -/
theorem runWithLimits_eq_none_iff {program source : String} {limits : Limits} :
    runWithLimits program source limits = none ↔
      limits.gasLimit.toNat + 1 = UInt64.size ∧ Source.Decodes source ∧
        ∃ tree leftover, built program source = .ok (tree, leftover) ∧
          ∀ outcome n, ¬ (Call.evaluate tree).Computes outcome n := by
  rw [runWithLimits, Option.map_eq_none_iff]
  constructor
  · intro h
    have hcourse := course program source limits
    rw [h] at hcourse
    cases hcourse with
    | @endless tree leftover hdecodes hbuilt hanswer =>
      obtain ⟨hlargest, hendless⟩ := (Call.run_eq_none_iff (c := .evaluate tree)).1 hanswer
      exact ⟨hlargest, hdecodes, tree, leftover, hbuilt, hendless⟩
  · intro h
    rcases h with ⟨hlargest, hdecodes, tree, leftover, hbuilt, hendless⟩
    have hanswer : (Evaluator.new limits).evaluate tree = none :=
      (Call.run_eq_none_iff (c := .evaluate tree)).2 ⟨hlargest, hendless⟩
    rw [ofSource_of_built_ok (Lexed.not_hasErrors_of_decodes hdecodes program) hbuilt, hanswer,
      Option.map_none]

/-- Whether the counter has room for the evaluation of the tree that a clean source builds, if it
builds one: there is a count above the limit, or the evaluation ends by the rules in a number of
visits that is a word. -/
def HasRoom (program source : String) (limits : Limits) : Prop :=
  Source.Decodes source → ∀ tree leftover, built program source = .ok (tree, leftover) →
    limits.gasLimit.toNat + 1 < UInt64.size ∨
      ∃ outcome n, n < UInt64.size ∧ (Call.evaluate tree).Computes outcome n

/-! ## What a run shows -/

/-- What is shown of a source with a raw token that has no meaning: reports on such raw tokens,
each with its place and its text. -/
structure DecodeFailure (source : String) (r : RunResult) : Prop where
  decodes : ¬ Source.Decodes source
  success : r.success = false
  value : r.value? = none
  gas : r.gasUsed = 0
  first : ∃ report ∈ r.errors.stored, r.errors.first? = some report
  errors : ∀ report ∈ r.errors.stored, 100 ≤ report.code.value ∧ report.code.value ≤ 104 ∧
    report.category = .decode ∧
    ∃ raw ∈ Source.rawTokens source, ∃ e, Token.ofWire raw.text = .error e ∧
      report.message = e.message ∧ report.span = some raw.span ∧ report.token = some raw.text

/-- A report on a source that builds no tree: it has no place if the source has no raw token,
and otherwise has the place and the text of the raw token to blame. -/
def Blames (source : String) (e : BuildError) (report : Report) : Prop :=
  (Source.rawTokens source = [] ∧ report.code.value = 200 ∧ report.span = none ∧
      report.token = none) ∨
    ∃ i raw, (Source.rawTokens source)[i]? = some raw ∧ e.parentIndex? = some i ∧
      raw.span.index = i ∧ Source.text? source raw.span = some raw.text ∧
      report.code.value = 201 ∧ report.span = some raw.span ∧ report.token = some raw.text

/-- What is shown of a clean source that builds no tree. -/
structure BuildFailure (program source : String) (r : RunResult) (e : BuildError)
    (report : Report) : Prop where
  decodes : Source.Decodes source
  built : built program source = .error e
  success : r.success = false
  value : r.value? = none
  gas : r.gasUsed = 0
  errors : r.errors = .single report
  category : report.category = .build
  message : report.message = e.message
  blames : Blames source e report

/-- What is shown of a tree whose evaluation fails. -/
structure EvalFailure (program source : String) (limits : Limits) (r : RunResult) (tree : Expr)
    (e : EvalError) (report : Report) : Prop where
  decodes : Source.Decodes source
  built : ∃ leftover, built program source = .ok (tree, leftover)
  answer : ∃ ev, (Evaluator.new limits).evaluate tree = some (.error e, ev) ∧
    ev.gasUsed = r.gasUsed
  success : r.success = false
  value : r.value? = none
  errors : r.errors = .single report
  code : 300 ≤ report.code.value ∧ report.code.value ≤ 305
  category : report.category = .eval
  message : report.message = e.message
  unlocated : report.span = none ∧ report.token = none
  gas : 1 ≤ r.gasUsed.toNat ∧ r.gasUsed.toNat ≤ limits.gasLimit.toNat + 1

/-- What is shown of a tree that has a value. -/
structure Success (program source : String) (limits : Limits) (r : RunResult) (tree : Expr)
    (s : Scalar) : Prop where
  decodes : Source.Decodes source
  built : ∃ leftover, built program source = .ok (tree, leftover)
  answer : ∃ ev, (Evaluator.new limits).evaluate tree = some (.ok (.scalar s), ev) ∧
    ev.gasUsed = r.gasUsed
  success : r.success = true
  value : r.value? = some s
  errors : r.errors = .empty
  gas : 1 ≤ r.gasUsed ∧ r.gasUsed ≤ limits.gasLimit

/-- What a run shows that has ended in a stage, or in none of them. -/
def EndsAt (program source : String) (limits : Limits) (r : RunResult) :
    Option Category → Prop
  | some .decode => DecodeFailure source r
  | some .build => ∃ e report, BuildFailure program source r e report
  | some .eval => ∃ tree e report, EvalFailure program source limits r tree e report
  | none => ∃ tree s, Success program source limits r tree s

/-- The stage that a run ended in is the category of its first error. -/
theorem EndsAt.eq_stage {program source : String} {limits : Limits} {r : RunResult}
    {stage : Option Category} (h : EndsAt program source limits r stage) :
    stage = r.errors.first?.map (·.category) := by
  match stage, h with
  | some .decode, h =>
    obtain ⟨report, hmem, hfirst⟩ := h.first
    obtain ⟨-, -, hcategory, -⟩ := h.errors report hmem
    rw [hfirst, Option.map_some, hcategory]
  | some .build, ⟨e, report, h⟩ =>
    rw [h.errors, ← h.category]
    rfl
  | some .eval, ⟨tree, e, report, h⟩ =>
    rw [h.errors, ← h.category]
    rfl
  | none, ⟨tree, s, h⟩ =>
    rw [h.errors]
    rfl

/-! ## The shape of each stage -/

theorem decodeCode_bounds (e : DecodeError) : 100 ≤ e.code.value ∧ e.code.value ≤ 104 := by
  cases e <;> exact of_decide_eq_true rfl

theorem evalCode_bounds (e : EvalError) : 300 ≤ e.code.value ∧ e.code.value ≤ 305 := by
  cases e with
  | fault f => cases f <;> exact of_decide_eq_true rfl
  | gasExhausted => exact of_decide_eq_true rfl

/-- The reports of lexing are on raw tokens without a meaning, with their places and texts. -/
theorem decodeFailure {program source : String} (h : ¬ Source.Decodes source) :
    DecodeFailure source (failed (Lexed.ofSource program source).diagnostics).result where
  decodes := h
  success := rfl
  value := rfl
  gas := rfl
  first :=
    have hcapped : (Lexed.ofSource program source).diagnostics.Capped :=
      Lexed.capped_ofRawTokens Diagnostics.capped_empty
    hcapped.exists_first? (Lexed.hasErrors_ofSource_iff.2 h)
  errors := by
    intro report hreport
    obtain hempty | ⟨raw, hraw, e, he, rfl⟩ := Lexed.exists_raw_of_mem_stored hreport
    · exact absurd hempty List.not_mem_nil
    · obtain ⟨hlow, hhigh⟩ := decodeCode_bounds e
      exact ⟨hlow, hhigh, e.category_code, raw, hraw, e, he, rfl, rfl, rfl⟩

/-- The report on a clean source that builds no tree blames the raw token that the build error
names. -/
theorem blames_of_built_error {program source : String} {e : BuildError}
    (hdecodes : Source.Decodes source) (h : built program source = .error e) :
    Blames source e (e.report program source (Lexed.ofSource program source).tokens) := by
  obtain ⟨ts, hts, -, htokens, -⟩ := Lexed.exists_tokens_of_decodes hdecodes program
  have hlength : ts.length = (Source.rawTokens source).length :=
    (Token.length_of_map_ofWire hts).trans (List.length_map _)
  rw [built, htokens] at h
  rw [BuildError.report_of_decodes hdecodes]
  rcases Cursor.readProgram_eq_error h with ⟨rfl, rfl⟩ | ⟨parent, i, hparent, rfl⟩
  · exact .inl ⟨List.eq_nil_of_length_eq_zero hlength.symm, rfl, rfl, rfl⟩
  · obtain ⟨hi, -⟩ := List.getElem?_eq_some_iff.1 hparent
    have hraw : (Source.rawTokens source)[i]? = some (Source.rawTokens source)[i] :=
      List.getElem?_eq_getElem (hlength ▸ hi)
    have hindex := Source.index_of_getElem? hraw
    have htext := Source.text?_of_mem_rawTokens (List.mem_of_getElem? hraw)
    refine .inr ⟨i, _, hraw, rfl, hindex, htext, ?_⟩
    simp only [BuildError.parentIndex?, Option.bind_some, hraw]
    exact ⟨rfl, rfl, rfl⟩

/-- The report of building is the one on the build error. -/
theorem buildFailure {program source : String} {e : BuildError}
    (hdecodes : Source.Decodes source) (h : built program source = .error e) :
    ∃ report, BuildFailure program source
      (failed (.single (e.report program source (Lexed.ofSource program source).tokens))).result
      e report := by
  have hblames := blames_of_built_error hdecodes h
  obtain ⟨span, token, hreport⟩ :=
    e.exists_place_report program source (Lexed.ofSource program source).tokens
  rw [hreport] at hblames ⊢
  exact ⟨_, {
    decodes := hdecodes
    built := h
    success := rfl
    value := rfl
    gas := rfl
    errors := rfl
    category := e.category_code
    message := rfl
    blames := hblames }⟩

section Evaluated

variable {program source : String} {limits : Limits} {tree : Expr} {leftover : Option Leftover}
  {ev : Evaluator}

/-- The report of an evaluation has no place. -/
theorem evalFailure {e : EvalError} (hroom : HasRoom program source limits)
    (hdecodes : Source.Decodes source) (hbuilt : built program source = .ok (tree, leftover))
    (h : (Evaluator.new limits).evaluate tree = some (.error e, ev)) :
    EvalFailure program source limits ⟨.error (.single (e.report program)), ev.gasUsed⟩
      tree e (e.report program) := by
  obtain ⟨hone, hlimit, -⟩ :=
    Call.gasUsed_run_new (c := .evaluate tree) trivial (hroom hdecodes tree leftover hbuilt) h
  exact {
    decodes := hdecodes
    built := ⟨leftover, hbuilt⟩
    answer := ⟨ev, h, rfl⟩
    success := rfl
    value := rfl
    errors := rfl
    code := evalCode_bounds e
    category := e.category_code
    message := rfl
    unlocated := ⟨rfl, rfl⟩
    gas := ⟨hone, hlimit⟩ }

theorem succeeds {s : Scalar} (hroom : HasRoom program source limits)
    (hdecodes : Source.Decodes source) (hbuilt : built program source = .ok (tree, leftover))
    (h : (Evaluator.new limits).evaluate tree = some (.ok (.scalar s), ev)) :
    Success program source limits ⟨.ok s, ev.gasUsed⟩ tree s := by
  obtain ⟨hone, -, hlimit⟩ :=
    Call.gasUsed_run_new (c := .evaluate tree) trivial (hroom hdecodes tree leftover hbuilt) h
  exact {
    decodes := hdecodes
    built := ⟨leftover, hbuilt⟩
    answer := ⟨ev, h, rfl⟩
    success := rfl
    value := rfl
    errors := rfl
    gas := ⟨UInt64.le_iff_toNat_le.2 hone,
      UInt64.le_iff_toNat_le.2 (hlimit fun hcut => by cases hcut)⟩ }

end Evaluated

/-- A run for which there is room ends in some stage, or with a value. -/
theorem Course.exists_endsAt {program source : String} {limits : Limits} {run : Option Run}
    (h : Course program source limits run) (hroom : HasRoom program source limits) :
    ∃ r stage, run = some r ∧ EndsAt program source limits r.result stage := by
  cases h with
  | decode hbad => exact ⟨_, some .decode, rfl, decodeFailure hbad⟩
  | build hdecodes hbuilt => exact ⟨_, some .build, rfl, _, buildFailure hdecodes hbuilt⟩
  | eval hdecodes hbuilt hanswer =>
    exact ⟨_, some .eval, rfl, _, _, _, evalFailure hroom hdecodes hbuilt hanswer⟩
  | value hdecodes hbuilt hanswer =>
    exact ⟨_, none, rfl, _, _, succeeds hroom hdecodes hbuilt hanswer⟩
  | @endless tree leftover hdecodes hbuilt hanswer =>
    obtain ⟨hlargest, hendless⟩ := (Call.run_eq_none_iff (c := .evaluate tree)).1 hanswer
    rcases hroom hdecodes tree leftover hbuilt with hsmaller | ⟨outcome, n, -, hends⟩
    · exact absurd hlargest (Nat.ne_of_lt hsmaller)
    · exact absurd hends (hendless outcome n)

/-- **One end.**  A run for which there is room ends in one stage, or with a value. -/
theorem exists_endsAt {program source : String} {limits : Limits}
    (hroom : HasRoom program source limits) :
    ∃ result, runWithLimits program source limits = some result ∧
      ∃! stage, EndsAt program source limits result stage := by
  obtain ⟨r, stage, hr, h⟩ := (course program source limits).exists_endsAt hroom
  refine ⟨r.result, ?_, stage, h, fun stage' h' => h'.eq_stage.trans h.eq_stage.symm⟩
  rw [runWithLimits, hr, Option.map_some]

end Run

/-! ## Messages that are never given -/

/-- Whether a text begins with a character. -/
abbrev Opens (text : String) (c : Char) : Prop := text.toList.head? = some c

theorem Opens.append {text : String} {c : Char} (h : Opens text c) (more : String) :
    Opens (text ++ more) c := by
  rw [Opens, String.toList_append, List.head?_append, h]
  rfl

theorem Opens.ne {text text' : String} {c d : Char} (h : Opens text c) (h' : Opens text' d)
    (hne : c ≠ d) : text ≠ text' := by
  rintro rfl
  exact hne (Option.some.inj (h.symm.trans h'))

theorem DecodeError.exists_opens (e : DecodeError) : ∃ c ≠ 'p', Opens e.message c := by
  cases e with
  | emptyToken => exact ⟨'e', by decide, rfl⟩
  | unhandledIndicator c => exact ⟨'u', by decide, Opens.append rfl _⟩
  | unrecognizedOperator arity symbol =>
    exact ⟨'u', by decide, ((Opens.append rfl _).append _).append _⟩
  | malformedBody indicator source =>
    exact ⟨'m', by decide, ((Opens.append rfl _).append _).append _⟩
  | idOutOfRange id => exact ⟨'v', by decide, (Opens.append rfl _).append _⟩

theorem BuildError.exists_opens (e : BuildError) : ∃ c ≠ 'p', Opens e.message c := by
  cases e with
  | emptyInput => exact ⟨'e', by decide, rfl⟩
  | truncated parent parentIndex index =>
    exact ⟨'e', by decide, ((((Opens.append rfl _).append _).append _).append _).append _⟩

theorem Fault.opens_mismatchMessage (op expected found : String) :
    Opens (mismatchMessage op expected found) 't' :=
  ((((Opens.append rfl _).append _).append _).append _).append _

theorem EvalError.exists_opens (e : EvalError) : ∃ c ≠ 'p', Opens e.message c := by
  cases e with
  | gasExhausted => exact ⟨'g', by decide, rfl⟩
  | fault f =>
    cases f with
    | unboundVariable x => exact ⟨'u', by decide, Opens.append rfl _⟩
    | unaryMismatch op found => exact ⟨'t', by decide, Fault.opens_mismatchMessage _ _ _⟩
    | binaryMismatch op left right =>
      exact ⟨'t', by decide, Fault.opens_mismatchMessage _ _ _⟩
    | conditionMismatch found => exact ⟨'t', by decide, Fault.opens_mismatchMessage _ _ _⟩
    | stackUnderflow x => exact ⟨'s', by decide, (Opens.append rfl _).append _⟩
    | divisionByZero => exact ⟨'d', by decide, rfl⟩
    | conversion e => exact ⟨'c', by decide, Opens.append rfl _⟩

/-- No message of a run begins with the letter `p`. -/
theorem Run.message_ne {program source : String} {limits : Limits} {result : RunResult}
    (hresult : runWithLimits program source limits = some result) {report : Report}
    (h : report ∈ result.errors.stored) {text : String} (htext : Opens text 'p') :
    report.message ≠ text := by
  have hopens : ∃ c ≠ 'p', Opens report.message c := by
    rcases (cause_of_mem_errors hresult h).message_eq with ⟨e, he⟩ | ⟨e, he⟩ | ⟨e, he⟩
    · exact he ▸ e.exists_opens
    · exact he ▸ e.exists_opens
    · exact he ▸ e.exists_opens
  obtain ⟨c, hc, hreport⟩ := hopens
  exact hreport.ne htext hc

/-- What the evaluation of a source without a name fails with is a report of its run. -/
theorem mem_errors_of_evaluateSource {source : String} {report : Report}
    (h : evaluateSource source = .error report) :
    report ∈ (run inlineProgram source).errors.stored := by
  rw [evaluateSource] at h
  cases houtcome : (run inlineProgram source).outcome with
  | ok s =>
    rw [houtcome] at h
    cases h
  | error d =>
    obtain ⟨r, hr, hcourse⟩ := Run.exists_course (runWithLimits_default inlineProgram source)
    obtain ⟨herrors, hcapped⟩ := hcourse.hasErrors (hr ▸ houtcome)
    obtain ⟨first, hmem, hfirst⟩ := hcapped.exists_first? herrors
    rw [houtcome] at h
    obtain rfl : first = report := by
      have hget := Except.error.inj h
      rwa [hfirst] at hget
    rw [RunResult.errors, houtcome]
    exact hmem

/-- A run succeeds if it has a value, and that if it has no errors. -/
theorem RunResult.success_iff {program source : String} {limits : Limits} {result : RunResult}
    (h : runWithLimits program source limits = some result) :
    (result.success = true ↔ result.value?.isSome = true) ∧
      (result.value?.isSome = true ↔ result.errors.hasErrors = false) := by
  rw [success, value?, errors]
  cases houtcome : result.outcome with
  | ok s => exact ⟨Iff.rfl, iff_of_true rfl rfl⟩
  | error d =>
    obtain ⟨r, hr, hcourse⟩ := Run.exists_course h
    obtain ⟨herrors, -⟩ := hcourse.hasErrors (hr ▸ houtcome)
    refine ⟨Iff.rfl, iff_of_false Bool.false_ne_true ?_⟩
    show ¬ d.hasErrors = false
    rw [herrors]
    exact Bool.noConfusion

/-! ## The main result -/

/-- **A run ends in one way.**  Let the counter have room for the evaluation, as it has under every
limit but the largest word.  Then the run comes to a result.  Either some raw token has no meaning,
wherever it stands; or all have one, and no tree is built; or one is built, and its evaluation
fails; or the run gives the value of the tree.  What is shown in each case is said by
`Run.DecodeFailure` and its likes.

Whatever the limit, the reports of a run name the program, and it succeeds exactly if it has a value
and exactly if it has no errors.  Neither does a run ever say that the program was reduced to an
unevaluated expression, nor does evaluating a source ever say that there was no value.

A run comes to no result exactly under the largest word, if the evaluation does not end. -/
theorem run_ends_at_one_stage (program source : String) (limits : Limits) :
    (limits.gasLimit.toNat + 1 < UInt64.size → Run.HasRoom program source limits) ∧
    (Run.HasRoom program source limits →
      ∃ result, runWithLimits program source limits = some result ∧
        ∃! stage, Run.EndsAt program source limits result stage) ∧
    (∀ result, runWithLimits program source limits = some result →
      (∀ report ∈ result.errors.stored, report.program = program ∧
        report.message ≠ "program reduced to an unevaluated expression") ∧
      (result.success = true ↔ result.value?.isSome = true) ∧
      (result.value?.isSome = true ↔ result.errors.hasErrors = false)) ∧
    (runWithLimits program source limits = none ↔
      limits.gasLimit.toNat + 1 = UInt64.size ∧ Source.Decodes source ∧
        ∃ tree leftover, Run.built program source = .ok (tree, leftover) ∧
          ∀ outcome n, ¬ (Call.evaluate tree).Computes outcome n) ∧
    ∀ report, evaluateSource source = .error report →
      report ∈ (run inlineProgram source).errors.stored ∧
        report.message ≠ "program produced no value" := by
  refine ⟨fun hlimit _ _ _ _ => .inl hlimit, Run.exists_endsAt, fun result hresult => ⟨?_, ?_⟩,
    Run.runWithLimits_eq_none_iff, ?_⟩
  · intro report hreport
    exact ⟨(Run.cause_of_mem_errors hresult hreport).program_eq,
      Run.message_ne hresult hreport rfl⟩
  · exact RunResult.success_iff hresult
  · intro report hreport
    have hmem := mem_errors_of_evaluateSource hreport
    exact ⟨hmem, Run.message_ne (runWithLimits_default _ _) hmem rfl⟩

/-- A sum that lacks an operand: the report is on the sum, which is the raw token of number zero
and stands behind two blanks. -/
theorem run_ends_at_one_stage_truncated :
    ∃ report, evaluateSource "  B+ T" = .error report ∧ report.span = some ⟨0, 2, 4⟩ ∧
      report.token = some "B+" ∧ report.program = inlineProgram ∧
      report.message ≠ "program produced no value" ∧
      ∃! stage, Run.EndsAt inlineProgram "  B+ T" .default (run inlineProgram "  B+ T") stage := by
  have hreport : evaluateSource "  B+ T" =
      .error ⟨inlineProgram, ⟨201⟩, .build,
        "empty input: binary add at token 0 is missing an operand at token 2",
        some ⟨0, 2, 4⟩, some "B+"⟩ := by decide +kernel
  have hdefault := runWithLimits_default inlineProgram "  B+ T"
  have hlimit : Limits.default.gasLimit.toNat + 1 < UInt64.size := of_decide_eq_true rfl
  obtain ⟨hroom, hends, hreports, -, hsource⟩ :=
    run_ends_at_one_stage inlineProgram "  B+ T" .default
  obtain ⟨hmem, hmessage⟩ := hsource _ hreport
  obtain ⟨result, hresult, hstage⟩ := hends (hroom hlimit)
  obtain rfl : run inlineProgram "  B+ T" = result :=
    Option.some.inj (hdefault.symm.trans hresult)
  obtain ⟨hprogram, -⟩ := (hreports _ hdefault).1 _ hmem
  exact ⟨_, hreport, rfl, rfl, hprogram, hmessage, hstage⟩

/-- The text of a program that applies a function to its parameter. -/
def endlessSource : String := "B$ L\" U- v\" v\""

/-- **A run that never ends.**  Under the largest word no visit is refused.  The source is clean and
builds a tree, but its run ends neither in a stage nor with a value. -/
theorem endless_source_never_ends :
    Source.Decodes endlessSource ∧ Run.built "p" endlessSource = .ok (endless, none) ∧
      runWithLimits "p" endlessSource ⟨18446744073709551615⟩ = none ∧
      ¬ ∃ result stage, runWithLimits "p" endlessSource ⟨18446744073709551615⟩ = some result ∧
        Run.EndsAt "p" endlessSource ⟨18446744073709551615⟩ result stage := by
  have hdecodes : Source.Decodes endlessSource := by decide +kernel
  have hbuilt : Run.built "p" endlessSource = .ok (endless, none) := by decide +kernel
  have hnone : runWithLimits "p" endlessSource ⟨18446744073709551615⟩ = none :=
    Run.runWithLimits_eq_none_iff.2 ⟨rfl, hdecodes, endless, none, hbuilt,
      fun outcome n => (Call.not_computes_endless outcome n).2⟩
  refine ⟨hdecodes, hbuilt, hnone, ?_⟩
  rintro ⟨result, stage, hresult, -⟩
  rw [hnone] at hresult
  cases hresult

end WireLambda
