import WireLambda.Proofs.WireRoundTrip

/-!
# What a run reports

A run reports the raw tokens that could not be read; or, if there are none, that no tree could
be built; or, if one was built, that its evaluation failed.  What a run is in each case is said
by `Run.ofSource_of_hasErrors`, `Run.ofSource_of_built_error` and `Run.ofSource_of_built_ok`.

`Run.Cause` says for a report what gave rise to it, and `Run.cause_of_mem_errors` that every
report of a run has a cause.  So the name and the message of a report are those of its cause
(`Run.Cause.program_eq`, `Run.Cause.message_eq`).

The codes of the three stages are apart (`DecodeError.category_code` and its likes), so a code
tells which stage failed.  `Run.Cause.exists_conversion` draws the conclusion for the code of
failed conversions: it comes from the evaluation of a tree that was built.
-/

namespace WireLambda

/-! ## The codes of a stage -/

theorem DecodeError.category_code (e : DecodeError) : e.code.category = .decode := by
  cases e <;> rfl

theorem BuildError.category_code (e : BuildError) : e.code.category = .build := by
  cases e <;> rfl

theorem EvalError.category_code (e : EvalError) : e.code.category = .eval := by
  cases e with
  | fault f => cases f <;> rfl
  | gasExhausted => rfl

/-- The code of a failed conversion is that of no other error of evaluation. -/
theorem EvalError.exists_conversion_of_code {e : EvalError} (h : e.code = .conversionFailed) :
    ∃ c, e = .fault (.conversion c) := by
  have hother : ∀ code : ErrorCode, code ≠ .conversionFailed → e.code ≠ code := by
    intro code hne hcode
    exact hne (hcode.symm.trans h)
  cases e with
  | gasExhausted => exact absurd rfl (hother .gasExhausted (by decide))
  | fault f =>
    cases f with
    | conversion c => exact ⟨c, rfl⟩
    | unboundVariable x => exact absurd rfl (hother .unboundVariable (by decide))
    | stackUnderflow x => exact absurd rfl (hother .stackUnderflow (by decide))
    | divisionByZero => exact absurd rfl (hother .divisionByZero (by decide))
    | _ => exact absurd rfl (hother .typeMismatch (by decide))

/-- Locating a report on a build error leaves the rest of it as it is. -/
theorem BuildError.exists_place_report (program source : String) (tokens : List LocatedToken)
    (e : BuildError) : ∃ span token, e.report program source tokens =
      ⟨program, e.code, e.code.category, e.message, span, token⟩ := by
  simp only [report]
  split
  · exact ⟨none, none, rfl⟩
  · split
    · exact ⟨none, none, rfl⟩
    · exact ⟨some _, some _, rfl⟩

theorem BuildError.code_report (program source : String) (tokens : List LocatedToken)
    (e : BuildError) : (e.report program source tokens).code = e.code := by
  obtain ⟨span, token, h⟩ := e.exists_place_report program source tokens
  rw [h]

/-- A report that is stored after a push was stored before, or is the one pushed. -/
theorem Diagnostics.mem_stored_push {d : Diagnostics} {r r' : Report}
    (h : r ∈ (d.push r').stored) : r ∈ d.stored ∨ r = r' := by
  rw [stored_push] at h
  split at h
  · rcases List.mem_append.1 h with h | h
    · exact .inl h
    · exact .inr (List.mem_singleton.1 h)
  · exact .inl h

namespace Lexed

/-! ## Where tokens and reports come from -/

/-- Every token was read from a raw token. -/
theorem exists_raw_of_mem_tokens {program : String} {d : Diagnostics} {raws : List RawToken}
    {t : LocatedToken} (h : t ∈ (ofRawTokens program d raws).tokens) :
    ∃ raw ∈ raws, Token.ofWire raw.text = .ok t.token := by
  fun_induction ofRawTokens program d raws with
  | case1 d => exact absurd h List.not_mem_nil
  | case2 d raw raws hfull => exact absurd h List.not_mem_nil
  | case3 d raw raws hroom token hread rest ih =>
    rcases List.mem_cons.1 h with rfl | h
    · exact ⟨raw, List.mem_cons_self, hread⟩
    · obtain ⟨raw', hraw', hread'⟩ := ih h
      exact ⟨raw', List.mem_cons_of_mem raw hraw', hread'⟩
  | case4 d raw raws hroom e hread ih =>
    obtain ⟨raw', hraw', hread'⟩ := ih h
    exact ⟨raw', List.mem_cons_of_mem raw hraw', hread'⟩

/-- Every report was there before, or is that on a raw token without a meaning. -/
theorem exists_raw_of_mem_stored {program : String} {d : Diagnostics} {raws : List RawToken}
    {r : Report} (h : r ∈ (ofRawTokens program d raws).diagnostics.stored) :
    r ∈ d.stored ∨
      ∃ raw ∈ raws, ∃ e, Token.ofWire raw.text = .error e ∧ r = e.report program raw := by
  fun_induction ofRawTokens program d raws with
  | case1 d => exact .inl h
  | case2 d raw raws hfull => exact .inl h
  | case3 d raw raws hroom token hread rest ih =>
    rcases ih h with h | ⟨raw', hraw', hcause⟩
    · exact .inl h
    · exact .inr ⟨raw', List.mem_cons_of_mem raw hraw', hcause⟩
  | case4 d raw raws hroom e hread ih =>
    rcases ih h with h | ⟨raw', hraw', hcause⟩
    · rcases Diagnostics.mem_stored_push h with h | rfl
      · exact .inl h
      · exact .inr ⟨raw, List.mem_cons_self, e, hread, rfl⟩
    · exact .inr ⟨raw', List.mem_cons_of_mem raw hraw', hcause⟩

end Lexed

namespace Run

/-! ## Causes -/

/-- The tree that a source is built into, and what it leaves over. -/
def built (program source : String) : Except BuildError (Expr × Option Leftover) :=
  (Cursor.start ((Lexed.ofSource program source).tokens.map (·.token))).readProgram

section Stages

variable {program source : String}

/-- A source with bad tokens is not built. -/
theorem ofSource_of_hasErrors
    (h : (Lexed.ofSource program source).diagnostics.hasErrors = true) (limits : Limits) :
    ofSource program source limits = some (failed (Lexed.ofSource program source).diagnostics) := by
  rw [ofSource, h]
  rfl

/-- A source without bad tokens that builds no tree is not evaluated. -/
theorem ofSource_of_built_error {e : BuildError}
    (hclean : ¬ (Lexed.ofSource program source).diagnostics.hasErrors = true)
    (h : built program source = .error e) (limits : Limits) :
    ofSource program source limits =
      some (failed (.single (e.report program source
        (Lexed.ofSource program source).tokens))) := by
  have hread : (Cursor.start ((Lexed.ofSource program source).tokens.map (·.token))).readProgram =
      .error e := h
  rw [ofSource, Bool.eq_false_iff.2 hclean]
  show ofTokens program source limits (Lexed.ofSource program source).tokens = _
  rw [ofTokens, hread]

/-- A source without bad tokens that builds a tree is evaluated. -/
theorem ofSource_of_built_ok {tree : Expr} {leftover : Option Leftover}
    (hclean : ¬ (Lexed.ofSource program source).diagnostics.hasErrors = true)
    (h : built program source = .ok (tree, leftover)) (limits : Limits) :
    ofSource program source limits =
      ((Evaluator.new limits).evaluate tree).map (ofAnswer program leftover) := by
  have hread : (Cursor.start ((Lexed.ofSource program source).tokens.map (·.token))).readProgram =
      .ok (tree, leftover) := h
  rw [ofSource, Bool.eq_false_iff.2 hclean]
  show ofTokens program source limits (Lexed.ofSource program source).tokens = _
  rw [ofTokens, hread]

end Stages

/-- What gives rise to a report of a run. -/
inductive Cause (program source : String) (limits : Limits) : Report → Prop where
  | decode {raw : RawToken} {e : DecodeError} (hraw : raw ∈ Source.rawTokens source)
      (h : Token.ofWire raw.text = .error e) :
      Cause program source limits (e.report program raw)
  | build {e : BuildError}
      (hclean : ¬ (Lexed.ofSource program source).diagnostics.hasErrors = true)
      (h : built program source = .error e) :
      Cause program source limits
        (e.report program source (Lexed.ofSource program source).tokens)
  | eval {tree : Expr} {leftover : Option Leftover} {e : EvalError} {ev : Evaluator}
      (hclean : ¬ (Lexed.ofSource program source).diagnostics.hasErrors = true)
      (hbuilt : built program source = .ok (tree, leftover))
      (h : (Evaluator.new limits).evaluate tree = some (.error e, ev)) :
      Cause program source limits (e.report program)

/-- Every report of a run has a cause. -/
theorem cause_of_mem_errors {program source : String} {limits : Limits} {result : RunResult}
    (hresult : runWithLimits program source limits = some result) {r : Report}
    (h : r ∈ result.errors.stored) : Cause program source limits r := by
  obtain ⟨run, hrun, rfl⟩ := Option.map_eq_some_iff.1 hresult
  by_cases hclean : (Lexed.ofSource program source).diagnostics.hasErrors = true
  · rw [ofSource_of_hasErrors hclean] at hrun
    obtain rfl := Option.some.inj hrun
    obtain hempty | ⟨raw, hraw, e, he, rfl⟩ := Lexed.exists_raw_of_mem_stored h
    · exact absurd hempty List.not_mem_nil
    · exact .decode hraw he
  · cases hbuilt : built program source with
    | error e =>
      rw [ofSource_of_built_error hclean hbuilt] at hrun
      obtain rfl := Option.some.inj hrun
      obtain rfl := List.mem_singleton.1 h
      exact .build hclean hbuilt
    | ok p =>
      obtain ⟨tree, leftover⟩ := p
      rw [ofSource_of_built_ok hclean hbuilt] at hrun
      obtain ⟨⟨answer, ev⟩, hanswer, rfl⟩ := Option.map_eq_some_iff.1 hrun
      cases answer with
      | error e =>
        obtain rfl := List.mem_singleton.1 h
        exact .eval hclean hbuilt hanswer
      | ok v =>
        cases v with
        | scalar s => exact absurd h List.not_mem_nil
        | deferred d => exact absurd hanswer (Evaluator.evaluate_ne_deferred _ ev tree d)

/-- Every report of a run names the program. -/
theorem Cause.program_eq {program source : String} {limits : Limits} {r : Report}
    (h : Cause program source limits r) : r.program = program := by
  cases h with
  | decode hraw h => rfl
  | @build e hclean h =>
    obtain ⟨span, token, hreport⟩ := e.exists_place_report program source
      (Lexed.ofSource program source).tokens
    rw [hreport]
  | eval hclean hbuilt h => rfl

/-- Every report of a run has the message of an error of one of the stages. -/
theorem Cause.message_eq {program source : String} {limits : Limits} {r : Report}
    (h : Cause program source limits r) :
    (∃ e : DecodeError, r.message = e.message) ∨ (∃ e : BuildError, r.message = e.message) ∨
      ∃ e : EvalError, r.message = e.message := by
  cases h with
  | @decode raw e hraw h => exact .inl ⟨e, rfl⟩
  | @build e hclean h =>
    obtain ⟨span, token, hreport⟩ := e.exists_place_report program source
      (Lexed.ofSource program source).tokens
    exact .inr (.inl ⟨e, by rw [hreport]⟩)
  | @eval tree leftover e hclean hbuilt h => exact .inr (.inr ⟨e, rfl⟩)

/-- A report of a failed conversion comes from the evaluation of the tree. -/
theorem Cause.exists_conversion {program source : String} {limits : Limits} {r : Report}
    (h : Cause program source limits r) (hcode : r.code = .conversionFailed) :
    ∃ tree leftover c ev, built program source = .ok (tree, leftover) ∧
      (Evaluator.new limits).evaluate tree = some (.error (.fault (.conversion c)), ev) := by
  have heval : r.code.category = .eval := by rw [hcode]; rfl
  cases h with
  | @decode raw e hraw h =>
    have hdecode := e.category_code
    exact absurd (hdecode.symm.trans heval) (by decide)
  | @build e hclean h =>
    rw [BuildError.code_report, BuildError.category_code] at heval
    exact absurd heval (by decide)
  | eval hclean hbuilt h =>
    obtain ⟨c, rfl⟩ := EvalError.exists_conversion_of_code hcode
    exact ⟨_, _, c, _, hbuilt, h⟩

end Run

end WireLambda
