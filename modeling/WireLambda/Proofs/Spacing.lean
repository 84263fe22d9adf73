import WireLambda.Proofs.Stages

/-!
# What a run depends on

A run depends on the raw tokens of its source and not on the gaps between them.  Only the bytes
of the places in its reports go by the gaps, so they are taken out: `forgetBytes` leaves of a
place the number of the raw token.  Forgetting goes along with lexing
(`Lexed.forgetBytes_ofRawTokens`), and raw tokens whose bytes are forgotten are known by their
texts (`Source.map_forgetBytes_rawTokens`), since they are numbered in order.  The later stages
look at the tokens only.

Neither does a run depend on what follows the program that it runs.  The tokens of a tree are the
first ones of a longer source still, so the longer source builds the same tree, and what follows
is left over (`Run.built_append`).  But it has to be clean, as the whole source is lexed first.

The main result is `run_depends_on_raw_tokens`.
-/

namespace WireLambda

/-! ## Forgetting bytes -/

/-- A place of which only the number of the raw token is left. -/
def Span.forgetBytes (s : Span) : Span := ⟨s.index, 0, 0⟩

def RawToken.forgetBytes (raw : RawToken) : RawToken := { raw with span := raw.span.forgetBytes }

def LocatedToken.forgetBytes (t : LocatedToken) : LocatedToken :=
  { t with span := t.span.forgetBytes }

/-- A report as it is, up to the bytes of its place. -/
def Report.forgetBytes (r : Report) : Report := { r with span := r.span.map Span.forgetBytes }

def Diagnostics.forgetBytes (d : Diagnostics) : Diagnostics :=
  { d with stored := d.stored.map Report.forgetBytes }

def Lexed.forgetBytes (l : Lexed) : Lexed :=
  ⟨l.tokens.map LocatedToken.forgetBytes, l.diagnostics.forgetBytes⟩

/-- What a run comes to, up to the bytes in its reports. -/
def RunResult.forgetBytes (r : RunResult) : RunResult :=
  { r with outcome := r.outcome.mapError Diagnostics.forgetBytes }

def Run.forgetBytes (r : Run) : Run := { r with result := r.result.forgetBytes }

theorem Diagnostics.forgetBytes_push (d : Diagnostics) (r : Report) :
    (d.push r).forgetBytes = d.forgetBytes.push r.forgetBytes := by
  have hlength : d.forgetBytes.stored.length = d.stored.length := List.length_map _
  rw [forgetBytes, push, push, hlength]
  split
  · rw [List.map_append]
    rfl
  · rfl

theorem Diagnostics.forgetBytes_single (r : Report) :
    (single r).forgetBytes = single r.forgetBytes := rfl

/-! ## Lexing -/

/-- Lexing raw tokens whose bytes are forgotten forgets the bytes of what lexing gives. -/
theorem Lexed.forgetBytes_ofRawTokens (program : String) (d : Diagnostics)
    (raws : List RawToken) :
    (ofRawTokens program d raws).forgetBytes =
      ofRawTokens program d.forgetBytes (raws.map RawToken.forgetBytes) := by
  fun_induction ofRawTokens program d raws with
  | case1 d => rfl
  | case2 d raw raws hfull =>
    have hfull' : Diagnostics.maxStored ≤ d.forgetBytes.total := hfull
    rw [ofRawTokens_full hfull']
    rfl
  | case3 d raw raws hroom token hread rest ih =>
    have hroom' : d.forgetBytes.total < Diagnostics.maxStored := Nat.not_le.1 hroom
    have hread' : Token.ofWire raw.forgetBytes.text = .ok token := hread
    rw [List.map_cons, ofRawTokens_ok hroom' hread', ← ih]
    rfl
  | case4 d raw raws hroom e hread ih =>
    have hroom' : d.forgetBytes.total < Diagnostics.maxStored := Nat.not_le.1 hroom
    have hread' : Token.ofWire raw.forgetBytes.text = .error e := hread
    rw [List.map_cons, ofRawTokens_error hroom' hread', ih,
      Diagnostics.forgetBytes_push]
    rfl

/-- Up to their bytes, the raw tokens of a source are known by their texts. -/
theorem Source.map_forgetBytes_rawTokens {source source' : String}
    (h : (rawTokens source).map (·.text) = (rawTokens source').map (·.text)) :
    (rawTokens source).map RawToken.forgetBytes =
      (rawTokens source').map RawToken.forgetBytes := by
  refine List.ext_getElem? fun i => ?_
  have hat : (rawTokens source)[i]?.map (·.text) = (rawTokens source')[i]?.map (·.text) := by
    rw [← List.getElem?_map, h, List.getElem?_map]
  rw [List.getElem?_map, List.getElem?_map]
  cases hraw : (rawTokens source)[i]? with
  | none =>
    rw [hraw] at hat
    rw [Option.map_eq_none_iff.1 hat.symm]
  | some raw =>
    rw [hraw] at hat
    obtain ⟨raw', hraw', htext⟩ := Option.map_eq_some_iff.1 hat.symm
    have hindex : raw.span.index = raw'.span.index :=
      (index_of_getElem? hraw).trans (index_of_getElem? hraw').symm
    rw [hraw', Option.map_some, Option.map_some, RawToken.forgetBytes, RawToken.forgetBytes,
      Span.forgetBytes, Span.forgetBytes, hindex, htext]

theorem Lexed.forgetBytes_ofSource {source source' : String}
    (h : (Source.rawTokens source).map (·.text) = (Source.rawTokens source').map (·.text))
    (program : String) :
    (ofSource program source).forgetBytes = (ofSource program source').forgetBytes := by
  rw [ofSource, ofSource, forgetBytes_ofRawTokens, forgetBytes_ofRawTokens,
    Source.map_forgetBytes_rawTokens h]

/-! ## The later stages -/

/-- The report on a build error of a clean source goes by the raw tokens of the source. -/
theorem BuildError.forgetBytes_report {source : String} (h : Source.Decodes source)
    (program : String) (e : BuildError) :
    (e.report program source (Lexed.ofSource program source).tokens).forgetBytes =
      match e.parentIndex?.bind (((Source.rawTokens source).map RawToken.forgetBytes)[·]?) with
      | none => .unlocated program e.code e.message
      | some raw => (Report.unlocated program e.code e.message).located raw.span raw.text := by
  rw [report_of_decodes h]
  cases e.parentIndex? with
  | none => rfl
  | some i =>
    simp only [Option.bind_some, List.getElem?_map]
    cases (Source.rawTokens source)[i]? <;> rfl

namespace Run

variable {program source source' : String}

theorem forgetBytes_failed (d : Diagnostics) : (failed d).forgetBytes = failed d.forgetBytes := rfl

/-- The tree that is built goes by the texts of the raw tokens. -/
theorem built_congr
    (h : (Source.rawTokens source).map (·.text) = (Source.rawTokens source').map (·.text)) :
    built program source = built program source' := by
  have htokens : ∀ l : Lexed, l.tokens.map (·.token) = l.forgetBytes.tokens.map (·.token) := by
    intro l
    rw [Lexed.forgetBytes, List.map_map]
    rfl
  rw [built, built, htokens, Lexed.forgetBytes_ofSource h, ← htokens]

/-- **Gaps.**  Two sources with the same raw tokens, up to their places, have the same run, up to
the bytes in its reports. -/
theorem forgetBytes_ofSource
    (h : (Source.rawTokens source).map (·.text) = (Source.rawTokens source').map (·.text))
    (limits : Limits) :
    (ofSource program source limits).map forgetBytes =
      (ofSource program source' limits).map forgetBytes := by
  have hlexed := Lexed.forgetBytes_ofSource h program
  have hbuilt' : built program source = built program source' := built_congr h
  have hiff : Source.Decodes source ↔ Source.Decodes source' := by
    rw [Source.decodes_iff_forall_text, Source.decodes_iff_forall_text, h]
  by_cases hdecodes : Source.Decodes source
  · have hclean := Lexed.not_hasErrors_of_decodes hdecodes program
    have hclean' := Lexed.not_hasErrors_of_decodes (hiff.1 hdecodes) program
    cases hbuilt : built program source with
    | error e =>
      rw [ofSource_of_built_error hclean hbuilt,
        ofSource_of_built_error hclean' (hbuilt' ▸ hbuilt)]
      have hreport := e.forgetBytes_report hdecodes program
      rw [Source.map_forgetBytes_rawTokens h,
        ← e.forgetBytes_report (hiff.1 hdecodes) program] at hreport
      rw [Option.map_some, Option.map_some, forgetBytes_failed, forgetBytes_failed,
        Diagnostics.forgetBytes_single, Diagnostics.forgetBytes_single, hreport]
    | ok p =>
      obtain ⟨tree, leftover⟩ := p
      rw [ofSource_of_built_ok hclean hbuilt, ofSource_of_built_ok hclean' (hbuilt' ▸ hbuilt)]
  · have hbad : ¬ Source.Decodes source' := fun h => hdecodes (hiff.2 h)
    have hdiagnostics : (Lexed.ofSource program source).diagnostics.forgetBytes =
        (Lexed.ofSource program source').diagnostics.forgetBytes :=
      congrArg Lexed.diagnostics hlexed
    rw [ofSource_of_hasErrors (Lexed.hasErrors_ofSource_iff.2 hdecodes),
      ofSource_of_hasErrors (Lexed.hasErrors_ofSource_iff.2 hbad), Option.map_some,
      Option.map_some, forgetBytes_failed, forgetBytes_failed, hdiagnostics]

/-! ## Sources that go on -/

/-- **Going on.**  A clean source that builds a tree builds the same tree if clean text follows
behind a gap, and what follows the tree is left over. -/
theorem built_append {gap rest : String} {tree : Expr} {leftover : Option Leftover}
    (hdecodes : Source.Decodes source) (hbuilt : built program source = .ok (tree, leftover))
    (hne : gap ≠ "") (hgap : Source.IsGap gap.toList) (hrest : Source.Decodes rest) :
    ∃ trailing, tree.size + trailing = (Source.rawTokens (source ++ gap ++ rest)).length ∧
      built program (source ++ gap ++ rest) =
        .ok (tree, if trailing = 0 then none else some ⟨tree.size, trailing⟩) := by
  have hwhole : Source.Decodes (source ++ gap ++ rest) :=
    (Source.decodes_append_iff hne hgap).2 ⟨hdecodes, hrest⟩
  obtain ⟨ts, hts, -, htokens, -⟩ := Lexed.exists_tokens_of_decodes hdecodes program
  obtain ⟨us, hus, -, -, -⟩ := Lexed.exists_tokens_of_decodes hrest program
  obtain ⟨all, hall, -, halltokens, -⟩ := Lexed.exists_tokens_of_decodes hwhole program
  -- the words of the whole source are those of both parts, and so are its tokens
  have hall' : all = ts ++ us := by
    have hinj : ∀ t u : Token, (Except.ok t : Except DecodeError Token) = .ok u → t = u :=
      fun _ _ => Except.ok.inj
    refine (List.map_inj_right hinj).1 (hall.symm.trans ?_)
    rw [Source.map_text_rawTokens_append hne hgap, List.map_append, hts, hus, List.map_append]
  have hlength : all.length = (Source.rawTokens (source ++ gap ++ rest)).length :=
    (Token.length_of_map_ofWire hall).trans (List.length_map _)
  rw [built, htokens] at hbuilt
  obtain ⟨hstand, -⟩ := Cursor.readProgram_eq_ok_iff.1 hbuilt
  -- what stands first in the source stands first in the whole
  have hstand' : tree.tokens <+: all := hall' ▸ hstand.trans (List.prefix_append ts us)
  have hsize : tree.size ≤ all.length := tree.length_tokens ▸ hstand'.length_le
  refine ⟨all.length - tree.size, by omega, ?_⟩
  rw [built, halltokens, Cursor.readProgram_eq_ok_iff.2 ⟨hstand', rfl⟩, Cursor.leftoverAt]
  simp only [Nat.sub_eq_zero_iff_le]

end Run

/-! ## The main result -/

/-- Two results that differ in the bytes of their reports at most. -/
structure RunResult.Alike (r r' : RunResult) : Prop where
  success : r.success = r'.success
  value : r.value? = r'.value?
  gas : r.gasUsed = r'.gasUsed
  errors : r.errors.forgetBytes = r'.errors.forgetBytes

theorem RunResult.alike_of_forgetBytes_eq {r r' : RunResult}
    (h : r.forgetBytes = r'.forgetBytes) : r.Alike r' := by
  have hviews : ∀ r : RunResult, r.success = r.forgetBytes.success ∧
      r.value? = r.forgetBytes.value? ∧ r.errors.forgetBytes = r.forgetBytes.errors := by
    rintro ⟨outcome, gas⟩
    cases outcome <;> exact ⟨rfl, rfl, rfl⟩
  obtain ⟨hsuccess, hvalue, herrors⟩ := hviews r
  obtain ⟨hsuccess', hvalue', herrors'⟩ := hviews r'
  have hgas : r.forgetBytes.gasUsed = r'.forgetBytes.gasUsed := congrArg gasUsed h
  refine ⟨?_, ?_, hgas, ?_⟩
  · rw [hsuccess, h, hsuccess']
  · rw [hvalue, h, hvalue']
  · rw [herrors, h, herrors']

/-- Two sources with the same raw tokens, up to their places, have results that are alike, and leave
the same over. -/
theorem Run.alike_of_texts {program source source' : String}
    (h : (Source.rawTokens source).map (·.text) = (Source.rawTokens source').map (·.text))
    (limits : Limits) :
    Option.Rel RunResult.Alike (runWithLimits program source limits)
        (runWithLimits program source' limits) ∧
      (ofSource program source limits).map (·.leftover) =
        (ofSource program source' limits).map (·.leftover) := by
  have hrun := @forgetBytes_ofSource program source source' h limits
  rw [runWithLimits, runWithLimits]
  generalize ofSource program source limits = run at hrun ⊢
  generalize ofSource program source' limits = run' at hrun ⊢
  cases run with
  | none =>
    obtain rfl := Option.map_eq_none_iff.1 hrun.symm
    exact ⟨.none, rfl⟩
  | some r =>
    obtain ⟨r', rfl, hr⟩ := Option.map_eq_some_iff.1 hrun.symm
    have hresult : r.forgetBytes.result = r'.forgetBytes.result := congrArg Run.result hr.symm
    have hleftover : r.forgetBytes.leftover = r'.forgetBytes.leftover :=
      congrArg Run.leftover hr.symm
    exact ⟨.some (RunResult.alike_of_forgetBytes_eq hresult), congrArg some hleftover⟩

/-- **A run depends on the raw tokens, up to the end of the program.**

Sources whose raw tokens have the same texts, whatever the gaps, have runs that agree in all but
the bytes in their reports.

If a clean source builds a tree, and a gap and any text follow, then a clean text changes nothing
but what is left over: the tokens that follow the tree are counted, if there are any.  A text that
is not clean makes the run fail in lexing. -/
theorem run_depends_on_raw_tokens (program : String) (limits : Limits) :
    (∀ source source' : String,
      (Source.rawTokens source).map (·.text) = (Source.rawTokens source').map (·.text) →
      Option.Rel RunResult.Alike (runWithLimits program source limits)
          (runWithLimits program source' limits) ∧
        (Run.ofSource program source limits).map (·.leftover) =
          (Run.ofSource program source' limits).map (·.leftover)) ∧
    ∀ (source gap rest : String) (tree : Expr) (leftover : Option Leftover),
      Source.Decodes source → Run.built program source = .ok (tree, leftover) →
      gap ≠ "" → Source.IsGap gap.toList →
      (Source.Decodes rest →
        runWithLimits program (source ++ gap ++ rest) limits =
            runWithLimits program source limits ∧
          ∃ trailing,
            tree.size + trailing = (Source.rawTokens (source ++ gap ++ rest)).length ∧
            ∀ r ∈ Run.ofSource program (source ++ gap ++ rest) limits,
              r.leftover = if trailing = 0 then none else some ⟨tree.size, trailing⟩) ∧
      (¬ Source.Decodes rest →
        ∃ result, runWithLimits program (source ++ gap ++ rest) limits = some result ∧
          Run.DecodeFailure (source ++ gap ++ rest) result) := by
  refine ⟨fun source source' htexts => Run.alike_of_texts htexts limits, ?_⟩
  intro source gap rest tree leftover hdecodes hbuilt hne hgap
  have happend : Source.Decodes (source ++ gap ++ rest) ↔
      Source.Decodes source ∧ Source.Decodes rest := Source.decodes_append_iff hne hgap
  refine ⟨fun hrest => ?_, fun hrest => ?_⟩
  · have hclean := Lexed.not_hasErrors_of_decodes hdecodes program
    have hclean' := Lexed.not_hasErrors_of_decodes (happend.2 ⟨hdecodes, hrest⟩) program
    obtain ⟨trailing, hcount, hbuilt'⟩ := Run.built_append hdecodes hbuilt hne hgap hrest
    refine ⟨?_, trailing, hcount, fun r hr => ?_⟩
    · rw [runWithLimits, runWithLimits, Run.ofSource_of_built_ok hclean hbuilt,
        Run.ofSource_of_built_ok hclean' hbuilt', Option.map_map, Option.map_map]
      rfl
    · rw [Run.ofSource_of_built_ok hclean' hbuilt'] at hr
      obtain ⟨answer, -, rfl⟩ := Option.map_eq_some_iff.1 hr
      rfl
  · have hbad : ¬ Source.Decodes (source ++ gap ++ rest) := fun h => hrest (happend.1 h).2
    refine ⟨_, ?_, @Run.decodeFailure program _ hbad⟩
    rw [runWithLimits, Run.ofSource_of_hasErrors (Lexed.hasErrors_ofSource_iff.2 hbad),
      Option.map_some]

/-- A sum without its second operand is reported alike with other gaps, two words behind a
program are counted, and a word without a meaning makes the run fail. -/
theorem run_depends_on_raw_tokens_spaced :
    (run "p" "B+ T").errors.forgetBytes = (run "p" "\tB+\n\nT ").errors.forgetBytes ∧
    run "p" "U! T \nF F" = run "p" "U! T" ∧
    (∀ r ∈ Run.ofSource "p" "U! T \nF F" .default, r.leftover = some ⟨2, 2⟩) ∧
    (run "p" "U! T \nF ~").gasUsed = 0 := by
  obtain ⟨hgaps, hrest⟩ := run_depends_on_raw_tokens "p" .default
  obtain ⟨halike, -⟩ := hgaps "B+ T" "\tB+\n\nT " (by decide +kernel)
  have htree : Run.built "p" "U! T" = .ok (.unary .not (.literal (.bool true)), none) := by
    decide +kernel
  have hgap : Source.IsGap " \n".toList := by decide +kernel
  obtain ⟨hclean, -⟩ := hrest "U! T" " \n" "F F" _ _ (by decide +kernel) htree (by decide) hgap
  obtain ⟨hrun, trailing, hcount, hleftover⟩ := hclean (by decide +kernel)
  obtain ⟨-, hbad⟩ := hrest "U! T" " \n" "F ~" _ _ (by decide +kernel) htree (by decide) hgap
  obtain ⟨failure, hfailure, hshown⟩ := hbad (by decide +kernel)
  have htrailing : 2 + trailing = 4 := hcount.trans (by decide +kernel)
  obtain rfl : trailing = 2 := by omega
  rw [runWithLimits_default, runWithLimits_default] at halike hrun
  cases halike with
  | some halike =>
    obtain rfl : run "p" "U! T \nF ~" = failure := run_eq_iff.2 hfailure
    exact ⟨halike.errors, Option.some.inj hrun, hleftover, hshown.gas⟩

end WireLambda
