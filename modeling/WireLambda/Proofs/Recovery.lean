import WireLambda.Proofs.Lexing

/-!
# Lexing after an error

Lexing goes on after a raw token that has no meaning, and gives up once twenty of them were met.
So it looks at the raw tokens of a source up to and including the twentieth without a meaning, and
at all of them if there are fewer: `Lexed.Looked` is that part of the source.  Of this part nothing
is lost and nothing is added.  Each raw token becomes a token if it has a meaning
(`RawToken.token?`) and a report if it has none (`RawToken.refusal?`), and both come in the order
of the source.

Lexing carries the reports so far along, and there is room for one more as long as it has not
given up.  So no report is dropped, and the reports are counted right: with `n` reports, all of
them kept, lexing stands at `Diagnostics.ofReports`.  `Lexed.ofRawTokens_append` says what a part
of the source adds to that, and `Lexed.ofRawTokens_of_looked` draws the conclusion for the part
that is looked at.

The main result is `lexing_loses_and_invents_nothing`.
-/

namespace WireLambda

/-! ## One raw token -/

namespace RawToken

/-- The token that a raw token is read as, in its place. -/
def token? (raw : RawToken) : Option LocatedToken :=
  match Token.ofWire raw.text with
  | .ok t => some ⟨t, raw.span⟩
  | .error _ => none

/-- The report on a raw token without a meaning: why it has none, where it stands, and its
text. -/
def refusal? (program : String) (raw : RawToken) : Option Report :=
  match Token.ofWire raw.text with
  | .ok _ => none
  | .error e => some ⟨program, e.code, .decode, e.message, some raw.span, some raw.text⟩

/-- Whether a raw token has no meaning. -/
def isRefused (raw : RawToken) : Bool := !(Token.ofWire raw.text).isOk

theorem isSome_refusal? (program : String) (raw : RawToken) :
    (raw.refusal? program).isSome = raw.isRefused := by
  rw [refusal?, isRefused]
  cases Token.ofWire raw.text <;> rfl

/-- There is one report for each raw token without a meaning. -/
theorem length_filterMap_refusal? (program : String) (raws : List RawToken) :
    (raws.filterMap (refusal? program)).length = raws.countP isRefused := by
  rw [List.length_filterMap_eq_countP]
  exact List.countP_congr fun raw _ => by rw [isSome_refusal?]

end RawToken

/-- The category of a report on a raw token is that of its code. -/
theorem DecodeError.report_eq (program : String) (raw : RawToken) (e : DecodeError) :
    e.report program raw =
      ⟨program, e.code, .decode, e.message, some raw.span, some raw.text⟩ := by
  rw [report, Report.unlocated, e.category_code]
  rfl

/-! ## Reports that are all kept -/

namespace Diagnostics

/-- Some reports, all of them kept. -/
def ofReports (reports : List Report) : Diagnostics := ⟨reports, reports.length⟩

theorem ofReports_push {reports : List Report} (hroom : reports.length < maxStored) (r : Report) :
    (ofReports reports).push r = ofReports (reports ++ [r]) := by
  rw [push, ofReports, if_pos hroom, ofReports, List.length_append]
  rfl

end Diagnostics

namespace Lexed

/-! ## The part that is looked at -/

/-- A part of some raw tokens: up to and including the `n`th of those without a meaning, and all
raw tokens if there are fewer. -/
inductive Looked (n : Nat) : List RawToken → List RawToken → Prop where
  | all {raws} (hfew : raws.countP RawToken.isRefused < n) : Looked n raws raws
  | cut {before last after} (hcount : before.countP RawToken.isRefused + 1 = n)
      (hlast : last.isRefused = true) : Looked n (before ++ last :: after) (before ++ [last])

/-- A raw token in front belongs to the part that is looked at, and counts if it has no
meaning. -/
theorem Looked.cons {n : Nat} {raws seen : List RawToken} (h : Looked n raws seen)
    (raw : RawToken) : Looked (n + if raw.isRefused then 1 else 0) (raw :: raws) (raw :: seen) := by
  cases h with
  | all hfew =>
    refine .all ?_
    rw [List.countP_cons]
    omega
  | @cut before last after hcount hlast =>
    refine @cut _ (raw :: before) last after ?_ hlast
    rw [List.countP_cons]
    omega

theorem exists_looked {n : Nat} (hn : 0 < n) (raws : List RawToken) :
    ∃ seen, Looked n raws seen := by
  induction raws generalizing n with
  | nil => exact ⟨[], .all hn⟩
  | cons raw raws ih =>
    by_cases hraw : raw.isRefused = true
    · by_cases hlast : n = 1
      · subst hlast
        exact ⟨[raw], @Looked.cut 1 [] raw raws rfl hraw⟩
      · obtain ⟨seen, hseen⟩ := ih (n := n - 1) (by omega)
        have hcons := hseen.cons raw
        rw [if_pos hraw, Nat.sub_add_cancel hn] at hcons
        exact ⟨raw :: seen, hcons⟩
    · obtain ⟨seen, hseen⟩ := ih hn
      have hcons := hseen.cons raw
      rw [if_neg hraw] at hcons
      exact ⟨raw :: seen, hcons⟩

/-- No more than `n` raw tokens without a meaning are looked at. -/
theorem Looked.countP_le {n : Nat} {raws seen : List RawToken} (h : Looked n raws seen) :
    seen.countP RawToken.isRefused ≤ n := by
  cases h with
  | all hfew => exact Nat.le_of_lt hfew
  | cut hcount hlast =>
    rw [List.countP_append, List.countP_singleton, if_pos hlast]
    omega

/-! ## What a part of the source adds -/

variable {program : String}

/-- **Step by step.**  A part of the source at whose end there is still room for a report adds its
tokens and its reports, and lexing goes on behind it.  The induction is on the part; there is room
before each raw token of it, since the reports become no fewer. -/
theorem ofRawTokens_append {reports : List Report} {before : List RawToken}
    (hroom : reports.length + before.countP RawToken.isRefused < Diagnostics.maxStored)
    (rest : List RawToken) :
    ofRawTokens program (.ofReports reports) (before ++ rest) =
      ⟨before.filterMap RawToken.token? ++
          (ofRawTokens program
            (.ofReports (reports ++ before.filterMap (RawToken.refusal? program))) rest).tokens,
        (ofRawTokens program
          (.ofReports (reports ++ before.filterMap (RawToken.refusal? program)))
          rest).diagnostics⟩ := by
  induction before generalizing reports with
  | nil => rw [List.nil_append, List.filterMap_nil, List.filterMap_nil, List.append_nil]; rfl
  | cons raw before ih =>
    rw [List.countP_cons] at hroom
    have hopen : (Diagnostics.ofReports reports).total < Diagnostics.maxStored := by
      show reports.length < _
      omega
    rw [List.cons_append]
    cases hread : Token.ofWire raw.text with
    | ok t =>
      have hlocated : raw.token? = some ⟨t, raw.span⟩ := by rw [RawToken.token?, hread]
      have hrefusal : raw.refusal? program = none := by rw [RawToken.refusal?, hread]
      rw [ofRawTokens_ok hopen hread, ih (by omega), List.filterMap_cons_some hlocated,
        List.filterMap_cons_none hrefusal]
      rfl
    | error e =>
      have hlocated : raw.token? = none := by rw [RawToken.token?, hread]
      have hrefusal : raw.refusal? program = some (e.report program raw) := by
        rw [RawToken.refusal?, hread, e.report_eq]
      have hcounted : raw.isRefused = true := by rw [RawToken.isRefused, hread]; rfl
      rw [if_pos hcounted] at hroom
      have hpushed : (reports ++ [e.report program raw]).length +
          before.countP RawToken.isRefused < Diagnostics.maxStored := by
        rw [List.length_append, List.length_singleton]
        omega
      rw [ofRawTokens_error hopen hread, Diagnostics.ofReports_push hopen, ih hpushed,
        List.filterMap_cons_none hlocated, List.filterMap_cons_some hrefusal,
        List.append_assoc]
      rfl

/-- **The whole source.**  Lexing gives the tokens and the reports of the part that is looked at,
and nothing else. -/
theorem ofRawTokens_of_looked {raws seen : List RawToken}
    (h : Looked Diagnostics.maxStored raws seen) :
    ofRawTokens program .empty raws =
      ⟨seen.filterMap RawToken.token?,
        .ofReports (seen.filterMap (RawToken.refusal? program))⟩ := by
  have hstart : Diagnostics.empty = .ofReports [] := rfl
  rw [hstart]
  cases h with
  | all hfew =>
    have hroom : ([] : List Report).length + raws.countP RawToken.isRefused <
        Diagnostics.maxStored := by
      rw [List.length_nil, Nat.zero_add]
      exact hfew
    have hall := @ofRawTokens_append program [] raws hroom []
    rw [List.append_nil] at hall
    rw [hall, ofRawTokens_nil, List.append_nil]
    rfl
  | @cut before last after hcount hlast =>
    obtain ⟨e, he⟩ : ∃ e, Token.ofWire last.text = .error e := by
      rw [RawToken.isRefused] at hlast
      cases hread : Token.ofWire last.text with
      | ok t => rw [hread] at hlast; cases hlast
      | error e => exact ⟨e, rfl⟩
    have hlocated : last.token? = none := by rw [RawToken.token?, he]
    have hrefusal : last.refusal? program = some (e.report program last) := by
      rw [RawToken.refusal?, he, e.report_eq]
    have hlength := RawToken.length_filterMap_refusal? program before
    have hopen : (Diagnostics.ofReports
        (before.filterMap (RawToken.refusal? program))).total < Diagnostics.maxStored := by
      show (before.filterMap (RawToken.refusal? program)).length < _
      omega
    have hfull : Diagnostics.maxStored ≤ (Diagnostics.ofReports
        (before.filterMap (RawToken.refusal? program) ++ [e.report program last])).total := by
      show _ ≤ (before.filterMap (RawToken.refusal? program) ++ [e.report program last]).length
      rw [List.length_append, List.length_singleton]
      omega
    rw [ofRawTokens_append (by rw [List.length_nil]; omega), List.nil_append,
      ofRawTokens_error hopen he, Diagnostics.ofReports_push hopen, ofRawTokens_full hfull,
      List.filterMap_append, List.filterMap_append, List.filterMap_cons_none hlocated,
      List.filterMap_cons_some hrefusal]
    rfl

/-- **Few reports.**  There are at most as many reports as are kept. -/
theorem total_ofSource_le (program source : String) :
    (ofSource program source).diagnostics.total ≤ Diagnostics.maxStored := by
  obtain ⟨seen, h⟩ := exists_looked (n := Diagnostics.maxStored) (by decide)
    (Source.rawTokens source)
  rw [ofSource, ofRawTokens_of_looked h]
  show (seen.filterMap (RawToken.refusal? program)).length ≤ _
  rw [RawToken.length_filterMap_refusal?]
  exact h.countP_le

end Lexed

/-! ## The main result -/

/-- **Lexing loses and invents nothing.**  Let `seen` be the raw tokens of a source up to and
including the twentieth that has no meaning, and all of them if fewer have none.  Then the tokens
of the source are those that the raw tokens in `seen` are read as, in order, each in its place, and
the reports are one for each raw token in `seen` that has no meaning, in order, with its place and
its text.

A place is numbered among all raw tokens.  All reports are kept, there are at most twenty, and
there are none exactly if every raw token of the source has a meaning. -/
theorem lexing_loses_and_invents_nothing (program source : String) :
    (∃ seen, Lexed.Looked 20 (Source.rawTokens source) seen) ∧
    (∀ seen, Lexed.Looked 20 (Source.rawTokens source) seen →
      (Lexed.ofSource program source).tokens = seen.filterMap RawToken.token? ∧
      (Lexed.ofSource program source).diagnostics.stored =
        seen.filterMap (RawToken.refusal? program)) ∧
    (∀ i (raw : RawToken), (Source.rawTokens source)[i]? = some raw → raw.span.index = i) ∧
    (Lexed.ofSource program source).diagnostics.total =
      (Lexed.ofSource program source).diagnostics.stored.length ∧
    (Lexed.ofSource program source).diagnostics.total ≤ 20 ∧
    ((Lexed.ofSource program source).diagnostics.hasErrors = false ↔
      ∀ raw ∈ Source.rawTokens source, ∃ t, Token.ofWire raw.text = .ok t) := by
  have hlexed : ∀ {seen}, Lexed.Looked 20 (Source.rawTokens source) seen →
      Lexed.ofSource program source = ⟨seen.filterMap RawToken.token?,
        .ofReports (seen.filterMap (RawToken.refusal? program))⟩ :=
    fun h => Lexed.ofRawTokens_of_looked h
  have hexists : ∃ seen, Lexed.Looked 20 (Source.rawTokens source) seen :=
    Lexed.exists_looked (by decide) _
  refine ⟨hexists, fun seen h => by rw [hlexed h]; exact ⟨rfl, rfl⟩,
    fun _ _ => Source.index_of_getElem?, ?_, ?_, ?_⟩
  · obtain ⟨seen, h⟩ := hexists
    rw [hlexed h]
    rfl
  · exact Lexed.total_ofSource_le program source
  · rw [Bool.eq_false_iff, ne_eq, Lexed.hasErrors_ofSource_iff, Classical.not_not]
    rfl

/-- A source whose second raw token has no meaning is looked at as a whole.  The third one keeps
its number, and is a token. -/
theorem lexing_loses_and_invents_nothing_middle :
    (Lexed.ofSource "p" "T x F").tokens =
      [⟨.literal (.bool true), ⟨0, 0, 1⟩⟩, ⟨.literal (.bool false), ⟨2, 4, 5⟩⟩] ∧
    (Lexed.ofSource "p" "T x F").diagnostics.stored =
      [⟨"p", .unhandledIndicator, .decode, (DecodeError.unhandledIndicator 'x').message,
        some ⟨1, 2, 3⟩, some "x"⟩] := by
  obtain ⟨-, hseen, -⟩ := lexing_loses_and_invents_nothing "p" "T x F"
  have hfew : (Source.rawTokens "T x F").countP RawToken.isRefused < 20 := by decide +kernel
  obtain ⟨htokens, hstored⟩ := hseen _ (.all hfew)
  have hread : (Source.rawTokens "T x F").filterMap RawToken.token? =
      [⟨.literal (.bool true), ⟨0, 0, 1⟩⟩, ⟨.literal (.bool false), ⟨2, 4, 5⟩⟩] := by
    decide +kernel
  have hrefused : (Source.rawTokens "T x F").filterMap (RawToken.refusal? "p") =
      [⟨"p", .unhandledIndicator, .decode, (DecodeError.unhandledIndicator 'x').message,
        some ⟨1, 2, 3⟩, some "x"⟩] := by
    decide +kernel
  exact ⟨htokens.trans hread, hstored.trans hrefused⟩

end WireLambda
