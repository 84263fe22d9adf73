import WireLambda.Json.Record
import WireLambda.Proofs.JsonText
import WireLambda.Proofs.Recovery
import WireLambda.Proofs.Stages

/-!
# Records and their texts

What a run comes to can be written as a JSON text and read back.  Nothing is lost on the way:
scalars, places, codes, stages, reports and diagnostics are read back as they were.

A text is read in two steps, and the first one gives back the value that was written
(`Json.ofText?_text`).  So what is left to show is that reading a record undoes writing it.  The
fields of a record have different names, and each is found under its name
(`Json.fields?_ofFields`).  What is in a field is read back since it was written by the rule by
which it is read:

* an integer goes as its decimal digits, so its size does not matter (`Text.readInt?_repr`);
* the places of raw tokens, and the number of errors, go as 64-bit words.  They have to fit into
  one (`Span.Fits`, `Diagnostics.Fits`);
* a report may have no place or no token, and then has no such field (`Json.optional?_map`).

The numbers in the diagnostics of a run fit if the length of its source in bytes does, since no
raw token has a number or a place beyond that (`Run.fits_errors`).

The main result is `json_is_lossless`.
-/

namespace WireLambda

/-! ## Integers in decimal -/

namespace Text

theorem digitValue?_of_isDigit {c : Char} (h : c.isDigit = true) :
    digitValue? c = some (c.toNat - 48) := by
  rw [Char.isDigit, Bool.and_eq_true, decide_eq_true_eq, decide_eq_true_eq] at h
  exact if_pos h

/-- A run of digits is read by place value. -/
theorem readDigits_eq_ofDigitChars {ds : List Char} (h : ∀ c ∈ ds, c.isDigit = true) (n : Nat) :
    readDigits n ds = some (Nat.ofDigitChars 10 ds n) := by
  induction ds generalizing n with
  | nil => rfl
  | cons c ds ih =>
    obtain ⟨hc, hds⟩ := List.forall_mem_cons.1 h
    have hne : c ≠ '_' := by
      rintro rfl
      exact absurd hc (by decide)
    rw [readDigits, if_neg hne, digitValue?_of_isDigit hc, Option.bind_some, ih hds,
      Nat.mul_comm]
    rfl

theorem readNat?_toDigits (n : Nat) : readNat? (Nat.toDigits 10 n) = some n := by
  have hdigits : ∀ c ∈ Nat.toDigits 10 n, c.isDigit = true :=
    fun c hc => Json.isDigit_of_mem_toDigits hc
  have hvalue : Nat.ofDigitChars 10 (Nat.toDigits 10 n) 0 = n := Nat.ofDigitChars_ten_toDigits
  cases hds : Nat.toDigits 10 n with
  | nil => exact absurd hds Nat.toDigits_ne_nil
  | cons c ds =>
    rw [hds] at hdigits hvalue
    obtain ⟨hc, hds⟩ := List.forall_mem_cons.1 hdigits
    rw [readNat?, digitValue?_of_isDigit hc, Option.bind_some, readDigits_eq_ofDigitChars hds]
    rw [Nat.ofDigitChars, List.foldl_cons, Nat.mul_zero, Nat.zero_add] at hvalue
    exact congrArg some hvalue

/-- An integer of any size is read back from its decimal text. -/
theorem readInt?_repr (n : Int) : readInt? n.repr = some n := by
  rw [Int.repr_eq_if]
  split
  · next hn =>
    have hnat : ((n.toNat : Nat) : Int) = n := Int.toNat_of_nonneg hn
    unfold readInt?
    rw [Nat.toList_repr]
    split
    · next cs hcs => exact absurd hcs (Json.toDigits_ne_cons rfl _ cs)
    · next cs hcs => exact absurd hcs (Json.toDigits_ne_cons rfl _ cs)
    · rw [readNat?_toDigits]
      exact congrArg some hnat
  · next hn =>
    have hnat : (((-n).toNat : Nat) : Int) = -n := Int.toNat_of_nonneg (by omega)
    have hlist : ("-" ++ (-n).toNat.repr).toList = '-' :: Nat.toDigits 10 (-n).toNat := by
      rw [String.toList_append, Nat.toList_repr]
      rfl
    unfold readInt?
    rw [hlist]
    simp only [readNat?_toDigits]
    show some (-(((-n).toNat : Nat) : Int)) = some n
    rw [hnat, Int.neg_neg]

end Text

/-! ## Fields -/

namespace Json

/-- What a text stands for: it is read as a value, and the value as a record. -/
def read? {α : Type} (ofJson? : Json → Option α) (text : String) : Option α :=
  (ofText? text).bind ofJson?

/-- The text of a value stands for what the value stands for. -/
theorem read?_text {α : Type} (ofJson? : Json → Option α) (j : Json) :
    read? ofJson? j.text = ofJson? j := by
  rw [read?, ofText?_text, Option.bind_some]

theorem text_injective {j j' : Json} (h : j.text = j'.text) : j = j' :=
  Option.some.inj ((ofText?_text j).symm.trans (h ▸ ofText?_text j'))

/-- A field that is given once is found. -/
theorem field?_ofFields {fields : List (String × Json)} (h : (fields.map Prod.fst).Nodup)
    (name : String) :
    field? (fields.map fun (name, j) => (some name, j)) name = some (fields.lookup name) := by
  induction fields with
  | nil => rfl
  | cons f fields ih =>
    obtain ⟨key, j⟩ := f
    obtain ⟨hkey, hfields⟩ := List.nodup_cons.1 h
    show field? ((some key, j) :: fields.map fun (name, j) => (some name, j)) name = _
    by_cases hname : name = key
    · subst hname
      have hrest : (fields.map fun (name, j) => (some name, j)).filter (·.1 == some name) = [] := by
        refine List.filter_eq_nil_iff.2 fun m hm heq => hkey ?_
        obtain ⟨g, hg, rfl⟩ := List.mem_map.1 hm
        exact List.mem_map.2 ⟨g, hg, Option.some.inj (beq_iff_eq.1 heq)⟩
      rw [field?, List.filter_cons, if_pos (beq_self_eq_true _), hrest, List.lookup_cons_self]
    · have hother : ¬ (some key == some name) = true :=
        fun heq => hname (Option.some.inj (beq_iff_eq.1 heq)).symm
      rw [List.lookup_cons, beq_eq_false_iff_ne.2 hname, field?, List.filter_cons, if_neg hother]
      exact ih hfields

/-- **Records.**  A record is read with the values that its fields were written with. -/
theorem fields?_ofFields {fields : List (String × Json)} (h : (fields.map Prod.fst).Nodup)
    (names : List String) (least : Nat) :
    fields? names least (ofFields fields) = some (names.map fun name => fields.lookup name) := by
  have hkeys : (fields.map fun (name, j) => (some name, j)).all (·.1.isSome) = true := by
    rw [List.all_map]
    exact List.all_eq_true.2 fun f _ => rfl
  rw [ofFields, fields?, if_pos hkeys, funext (field?_ofFields h)]
  exact List.mapM_pure

theorem optional?_of_ne_null {α : Type} (read : Json → Option α) {j : Json} (h : j ≠ null) :
    optional? read (some j) = (read j).map some := by
  cases j with
  | null => exact absurd rfl h
  | _ => rfl

/-- A field that is left out if there is nothing to write is read back, if nothing is written as
null. -/
theorem optional?_map {α : Type} {read : Json → Option α} {write : α → Json} {a? : Option α}
    (hread : ∀ a ∈ a?, read (write a) = some a) (hnull : ∀ a, write a ≠ null) :
    optional? read (a?.map write) = some a? := by
  cases a? with
  | none => rfl
  | some a => rw [Option.map_some, optional?_of_ne_null read (hnull a), hread a rfl]; rfl

/-- A list is read back item by item. -/
theorem mapM_map_eq_some {α : Type} {read : Json → Option α} {write : α → Json} {as : List α}
    (h : ∀ a ∈ as, read (write a) = some a) : (as.map write).mapM read = some as := by
  induction as with
  | nil => rfl
  | cons a as ih =>
    obtain ⟨ha, has⟩ := List.forall_mem_cons.1 h
    rw [List.map_cons, List.mapM_cons, ha, ih has]
    rfl

theorem toWord?_ofNat {n : Nat} (h : n < UInt64.size) : (ofNat n).toWord? = some n := if_pos h

end Json

/-! ## Scalars -/

namespace Scalar

/-- A tagged value has the type and the value that it was written with. -/
theorem ofJson?_ofFields (type : String) (value : Json) :
    ofJson? (.ofFields [("type", .ofString type), ("value", value)]) = ofTagged? type value := by
  have hfields : (Json.ofFields [("type", .ofString type), ("value", value)]).fields?
      ["type", "value"] 2 = some [some (.ofString type), some value] :=
    Json.fields?_ofFields (by simp) _ _
  rw [Json.ofFields] at hfields ⊢
  rw [ofJson?, hfields]
  rfl

theorem ofJson?_toJson (s : Scalar) : ofJson? s.toJson = some s := by
  cases s with
  | bool b => exact ofJson?_ofFields "bool" (.bool b)
  | int n =>
    rw [toJson, ofJson?_ofFields]
    show (Text.readInt? n.repr).map Scalar.int = _
    rw [Text.readInt?_repr]
    rfl
  | str s => exact ofJson?_ofFields "string" (.ofString s)

theorem toJson_ne_null (s : Scalar) : s.toJson ≠ .null := by
  intro h
  cases s <;> cases h

/-- The value of a run is read back, if there is one, and null stands for none. -/
theorem optional?_toJson (value : Option Scalar) :
    Json.optional? ofJson? (some ((value.map toJson).getD .null)) = some value := by
  cases value with
  | none => rfl
  | some s =>
    rw [Option.map_some, Option.getD_some, Json.optional?_of_ne_null _ s.toJson_ne_null,
      ofJson?_toJson]
    rfl

end Scalar

/-! ## Places, codes and stages -/

namespace Span

/-- The numbers of a place fit into 64-bit words. -/
structure Fits (s : Span) : Prop where
  index : s.index < UInt64.size
  start : s.start < UInt64.size
  stop : s.stop < UInt64.size

theorem ofJson?_toJson {s : Span} (h : s.Fits) : ofJson? s.toJson = some s := by
  have hfields : s.toJson.fields? ["index", "start", "end"] 3 =
      some [some (.ofNat s.index), some (.ofNat s.start), some (.ofNat s.stop)] :=
    Json.fields?_ofFields (by simp) _ _
  rw [ofJson?, hfields]
  simp only [Json.toWord?_ofNat h.index, Json.toWord?_ofNat h.start, Json.toWord?_ofNat h.stop]
  rfl

end Span

theorem ErrorCode.ofJson?_toJson (code : ErrorCode) : ofJson? code.toJson = some code := by
  have hword : code.toJson.toNatBelow? UInt16.size = some code.value.toNat :=
    if_pos code.value.toNat_lt_size
  rw [ofJson?, hword, Option.map_some, UInt16.ofNat_toNat]

theorem Category.ofJson?_toJson (c : Category) : ofJson? c.toJson = some c := by
  cases c <;> rfl

/-! ## Reports -/

namespace Report

/-- The place of a report, if it has one, fits into 64-bit words. -/
def Fits (r : Report) : Prop := ∀ span ∈ r.span, span.Fits

/-- A report has its four fields, and those of place and token if it has these. -/
theorem fields?_toJson (r : Report) :
    r.toJson.fields? ["program", "code", "category", "message", "span", "token"] 6 =
      some [some (.ofString r.program), some r.code.toJson, some r.category.toJson,
        some (.ofString r.message), r.span.map Span.toJson, r.token.map .ofString] := by
  obtain ⟨program, code, category, message, span, token⟩ := r
  cases span <;> cases token <;> exact Json.fields?_ofFields (by simp) _ _

theorem ofJson?_toJson {r : Report} (h : r.Fits) : ofJson? r.toJson = some r := by
  have hspan : Json.optional? Span.ofJson? (r.span.map Span.toJson) = some r.span :=
    Json.optional?_map (fun span hspan => Span.ofJson?_toJson (h span hspan))
      (fun span h => by cases h)
  have htoken : Json.optional? Json.toString? (r.token.map .ofString) = some r.token :=
    Json.optional?_map (fun token _ => rfl) (fun token h => by cases h)
  have htext : ∀ s, (Json.ofString s).toString? = some s := fun s => rfl
  rw [ofJson?, fields?_toJson]
  simp only [htext, ErrorCode.ofJson?_toJson, Category.ofJson?_toJson, hspan, htoken]
  rfl

end Report

/-! ## Diagnostics -/

namespace Diagnostics

/-- The places of the reports, and the number of errors, fit into 64-bit words. -/
structure Fits (d : Diagnostics) : Prop where
  stored : ∀ r ∈ d.stored, r.Fits
  total : d.total < UInt64.size

theorem ofJson?_toJson {d : Diagnostics} (h : d.Fits) : ofJson? d.toJson = some d := by
  have hfields : d.toJson.fields? ["errors", "total_errors"] 2 =
      some [some (.array (d.stored.map Report.toJson)), some (.ofNat d.total)] :=
    Json.fields?_ofFields (by simp) _ _
  have hstored : (d.stored.map Report.toJson).mapM Report.ofJson? = some d.stored :=
    Json.mapM_map_eq_some fun r hr => Report.ofJson?_toJson (h.stored r hr)
  rw [ofJson?, hfields]
  simp only [hstored, Json.toWord?_ofNat h.total]
  rfl

end Diagnostics

/-! ## Runs -/

/-- A raw token stands in its source, so its numbers fit if the length of the source does. -/
theorem Span.fits_of_mem_rawTokens {source : String} (hsize : source.utf8ByteSize < UInt64.size)
    {raw : RawToken} (h : raw ∈ Source.rawTokens source) : raw.span.Fits := by
  rw [← Source.byteLength_toList] at hsize
  rw [Source.rawTokens_eq] at h
  have hindex := Source.index_lt_of_mem h
  obtain ⟨hstart, hstop⟩ := Source.start_le_stop_of_mem h
  constructor <;> omega

/-- A report of a run has the place of a raw token, or none. -/
theorem Run.Cause.fits {program source : String} {limits : Limits} {r : Report}
    (h : Cause program source limits r) (hsize : source.utf8ByteSize < UInt64.size) : r.Fits := by
  intro span hspan
  cases h with
  | @decode raw e hraw h =>
    obtain rfl : raw.span = span := Option.some.inj hspan
    exact Span.fits_of_mem_rawTokens hsize hraw
  | @build e hclean h =>
    have hdecodes : Source.Decodes source :=
      Classical.not_not.1 fun h => hclean (Lexed.hasErrors_ofSource_iff.2 h)
    rw [BuildError.report_of_decodes hdecodes] at hspan
    split at hspan
    · cases hspan
    · next raw hraw =>
      obtain ⟨i, -, hi⟩ := Option.bind_eq_some_iff.1 hraw
      obtain rfl : raw.span = span := Option.some.inj hspan
      exact Span.fits_of_mem_rawTokens hsize (List.mem_of_getElem? hi)
  | eval hclean hbuilt h => cases hspan

/-- A run has no more errors than are kept. -/
theorem Run.Course.total_errors_le {program source : String} {limits : Limits} {r : Run}
    (h : Course program source limits (some r)) :
    r.result.errors.total ≤ Diagnostics.maxStored := by
  cases h with
  | decode h => exact Lexed.total_ofSource_le program source
  | build hdecodes h | eval hdecodes hbuilt h => exact of_decide_eq_true rfl
  | value hdecodes hbuilt h => exact Nat.zero_le _

/-- **Runs.**  The diagnostics of a run fit, if the length of its source does. -/
theorem Run.fits_errors {program source : String} (hsize : source.utf8ByteSize < UInt64.size)
    {limits : Limits} {result : RunResult}
    (h : runWithLimits program source limits = some result) : result.errors.Fits := by
  obtain ⟨r, rfl, hcourse⟩ := exists_course h
  exact {
    stored := fun _ hreport => (cause_of_mem_errors h hreport).fits hsize
    total := Nat.lt_of_le_of_lt hcourse.total_errors_le (by decide) }

theorem fits_errors_run {program source : String} (hsize : source.utf8ByteSize < UInt64.size) :
    (run program source).errors.Fits :=
  Run.fits_errors hsize (runWithLimits_default program source)

/-- What is written of a run.  In a record that no run has given, the parts need not agree. -/
structure RunRecord where
  success : Bool
  value : Option Scalar
  errors : Diagnostics
  gasUsed : UInt64

namespace RunRecord

/-- The record as a value. -/
def toJson (r : RunRecord) : Json :=
  .ofFields [("success", .bool r.success), ("value", (r.value.map Scalar.toJson).getD .null),
    ("errors", r.errors.toJson), ("gas_used", .ofNat r.gasUsed.toNat)]

/-- Different records are written as different values. -/
theorem toJson_injective {r r' : RunRecord} (hfits : r.errors.Fits) (hfits' : r'.errors.Fits)
    (h : r.toJson = r'.toJson) : r = r' := by
  obtain ⟨success, value, errors, gas⟩ := r
  obtain ⟨success', value', errors', gas'⟩ := r'
  simp only [toJson, Json.ofFields, List.map_cons, List.map_nil, Json.object.injEq,
    List.cons.injEq, Prod.mk.injEq, true_and, and_true, Json.bool.injEq, Json.ofNat,
    Json.number.injEq, Option.some.injEq] at h
  obtain ⟨hsuccess, hvalue, herrors, hgas⟩ := h
  have hvalue : value = value' := by
    have hread := Scalar.optional?_toJson value
    rw [hvalue, Scalar.optional?_toJson] at hread
    exact (Option.some.inj hread).symm
  have herrors : errors = errors' := by
    have hread := Diagnostics.ofJson?_toJson hfits
    rw [herrors, Diagnostics.ofJson?_toJson hfits'] at hread
    exact (Option.some.inj hread).symm
  rw [hsuccess, hvalue, herrors, UInt64.toNat_inj.1 hgas]

end RunRecord

namespace RunResult

/-- What is written of the result of a run. -/
def record (r : RunResult) : RunRecord := ⟨r.success, r.value?, r.errors, r.gasUsed⟩

theorem toJson_eq (r : RunResult) : r.toJson = r.record.toJson := rfl

/-- A result is known by what is written of it. -/
theorem record_injective {r r' : RunResult} (h : r.record = r'.record) : r = r' := by
  obtain ⟨outcome, gas⟩ := r
  obtain ⟨outcome', gas'⟩ := r'
  obtain ⟨hsuccess, hvalue, herrors, rfl⟩ := RunRecord.mk.inj h
  cases outcome with
  | ok s =>
    cases outcome' with
    | ok s' =>
      obtain rfl : s = s' := Option.some.inj hvalue
      rfl
    | error d' => cases hsuccess
  | error d =>
    cases outcome' with
    | ok s' => cases hsuccess
    | error d' =>
      obtain rfl : d = d' := herrors
      rfl

/-- Different results of runs have different texts. -/
theorem toJson_text_injective {r r' : RunResult} (hfits : r.errors.Fits) (hfits' : r'.errors.Fits)
    (h : r.toJson.text = r'.toJson.text) : r = r' := by
  rw [toJson_eq, toJson_eq] at h
  exact record_injective (RunRecord.toJson_injective hfits hfits' (Json.text_injective h))

end RunResult

/-! ## The main result -/

/-- **Nothing is lost in JSON.**  Scalars, places, codes, stages, reports and diagnostics are read
back from their texts as they were; the numbers in a place, and the number of errors, are 64-bit
words.

The text of a run is an object.  In it stand the value that the run gave, or null, and its errors;
both are read back.  A source has a length that is a 64-bit word, or it would not fit into memory.

So different records have different texts, and different results of runs have different
records. -/
theorem json_is_lossless :
    (∀ s : Scalar, Json.read? Scalar.ofJson? s.toJson.text = some s) ∧
    (∀ span : Span, span.Fits → Json.read? Span.ofJson? span.toJson.text = some span) ∧
    (∀ code : ErrorCode, Json.read? ErrorCode.ofJson? code.toJson.text = some code) ∧
    (∀ stage : Category, Json.read? Category.ofJson? stage.toJson.text = some stage) ∧
    (∀ r : Report, r.Fits → Json.read? Report.ofJson? r.toJson.text = some r) ∧
    (∀ d : Diagnostics, d.Fits → Json.read? Diagnostics.ofJson? d.toJson.text = some d) ∧
    (∀ program source, source.utf8ByteSize < UInt64.size →
      ∃ members value errors, Json.ofText? (runJson program source) = some (.object members) ∧
        Json.field? members "value" = some (some value) ∧
        Json.optional? Scalar.ofJson? (some value) = some (run program source).value? ∧
        Json.field? members "errors" = some (some errors) ∧
        Diagnostics.ofJson? errors = some (run program source).errors) ∧
    (∀ r r' : RunRecord, r.errors.Fits → r'.errors.Fits →
      r.toJson.text = r'.toJson.text → r = r') ∧
    ∀ r r' : RunResult, r.errors.Fits → r'.errors.Fits →
      r.toJson.text = r'.toJson.text → r = r' := by
  refine ⟨fun s => ?_, fun span h => ?_, fun code => ?_, fun stage => ?_, fun r h => ?_,
    fun d h => ?_, fun program source hsize => ?_, fun r r' hfits hfits' h => ?_,
    fun r r' => RunResult.toJson_text_injective⟩
  · rw [Json.read?_text, Scalar.ofJson?_toJson]
  · rw [Json.read?_text, Span.ofJson?_toJson h]
  · rw [Json.read?_text, ErrorCode.ofJson?_toJson]
  · rw [Json.read?_text, Category.ofJson?_toJson]
  · rw [Json.read?_text, Report.ofJson?_toJson h]
  · rw [Json.read?_text, Diagnostics.ofJson?_toJson h]
  · exact ⟨_, _, _, Json.ofText?_text _, Json.field?_ofFields (by simp) "value",
      Scalar.optional?_toJson _, Json.field?_ofFields (by simp) "errors",
      Diagnostics.ofJson?_toJson (fits_errors_run hsize)⟩
  · exact RunRecord.toJson_injective hfits hfits' (Json.text_injective h)

/-- The report on a sum without a second operand, in a program whose name is a quote and a line
feed.  It has a place, and its source begins with a blank. -/
def truncatedReport : Report :=
  BuildError.report "\"\n" " B+ I\"" (Lexed.ofSource "\"\n" " B+ I\"").tokens
    (.truncated (.binary .add) 0 2)

/-- A report with a place is read back, alone and in diagnostics that count more errors than they
keep; a run that fails is read back; and two values have two texts. -/
theorem json_is_lossless_truncated :
    truncatedReport.span = some ⟨0, 1, 3⟩ ∧
    Json.read? Report.ofJson? truncatedReport.toJson.text = some truncatedReport ∧
    Json.read? Diagnostics.ofJson? (Diagnostics.toJson ⟨[truncatedReport], 21⟩).text =
      some ⟨[truncatedReport], 21⟩ ∧
    (run "\"\n" " B+ I\"").errors = .single truncatedReport ∧
    (∃ members value errors,
      Json.ofText? (runJson "\"\n" " B+ I\"") = some (.object members) ∧
      Json.field? members "value" = some (some value) ∧
      Json.optional? Scalar.ofJson? (some value) = some none ∧
      Json.field? members "errors" = some (some errors) ∧
      Diagnostics.ofJson? errors = some (.single truncatedReport)) ∧
    (run "p" "T").toJson.text ≠ (run "p" "F").toJson.text := by
  obtain ⟨-, -, -, -, hreport, hdiagnostics, hrun, -, hresults⟩ := json_is_lossless
  have hspan : truncatedReport.span = some ⟨0, 1, 3⟩ := by decide +kernel
  have hfits : truncatedReport.Fits := by
    intro span h
    obtain rfl := Option.some.inj (hspan.symm.trans h)
    exact ⟨by decide, by decide, by decide⟩
  have herrors : (run "\"\n" " B+ I\"").errors = .single truncatedReport := by decide +kernel
  have hvalue : (run "\"\n" " B+ I\"").value? = none := by decide +kernel
  have hread := hrun "\"\n" " B+ I\"" (by decide)
  rw [herrors, hvalue] at hread
  refine ⟨hspan, hreport _ hfits, hdiagnostics _ ⟨?_, by decide⟩, herrors, hread, fun h => ?_⟩
  · exact fun r hr => (List.mem_singleton.1 hr) ▸ hfits
  · have hsame := hresults _ _ (fits_errors_run (by decide)) (fits_errors_run (by decide)) h
    have htrueWire : (Expr.literal (.bool true)).toWire = .ok "T" := by
      rw [Expr.toWire_eq]
      rfl
    have hfalseWire : (Expr.literal (.bool false)).toWire = .ok "F" := by
      rw [Expr.toWire_eq]
      rfl
    have htrue : (run "p" "T").value? = some (.bool true) :=
      value?_run_of_toWire htrueWire (n := 1) (.finish .literal .forceScalar) (by decide) "p"
    have hfalse : (run "p" "F").value? = some (.bool false) :=
      value?_run_of_toWire hfalseWire (n := 1) (.finish .literal .forceScalar) (by decide) "p"
    rw [hsame, hfalse] at htrue
    exact absurd htrue (by decide)

end WireLambda
