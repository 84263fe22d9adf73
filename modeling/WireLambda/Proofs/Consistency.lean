import Mathlib.Data.Nat.PSub
import WireLambda.Proofs.JsonRecords
import WireLambda.Proofs.Collecting

/-!
# Diagnostics that do not add up

Diagnostics keep the first reports and count all of them.  Three things are then taken for granted:
that the count is not less than the number of the reports kept, that there is a first report exactly
if there was an error, and that the count is not zero where `display` takes one from it, to say how
many other errors there were.

Pushing a report keeps all of this up, but diagnostics can also be read from a text, and the reader
takes the list and the count as they are given.  Whatever fits into 64-bit words is read from some
text (`Diagnostics.exists_read?_iff`), so reading promises nothing about the list and the count
together.

Both are known exactly after any reports were pushed (`Diagnostics.stored_pushAll`,
`Diagnostics.total_pushAll`), and with them the three things are.  A single push is enough for there
to be a first report and a count above zero.  A count that is too low becomes right again only by
the reports that are counted and not kept.

Here a report is pushed only if the count stays a 64-bit word (`Diagnostics.push?`), and the errors
are shown only if the number of the others is not below zero (`Diagnostics.display?`).

The main result is `read_diagnostics_agree_iff`, and `read_diagnostics_disagree` has texts that are
read as diagnostics for which the three things fail.
-/

namespace WireLambda

/-! ## What is read fits -/

namespace Json

theorem lt_size_of_toWord? {j : Json} {n : Nat} (h : j.toWord? = some n) : n < UInt64.size := by
  rw [toWord?] at h
  unfold toNatBelow? at h
  split at h
  · split at h
    · next hlt =>
      obtain rfl := Option.some.inj h
      exact hlt
    · cases h
  · cases h

/-- What an optional field holds was read from it. -/
theorem exists_read_of_optional? {α : Type} {read : Json → Option α} {j? : Option Json}
    {a? : Option α} (h : optional? read j? = some a?) {a : α} (ha : a ∈ a?) :
    ∃ j, read j = some a := by
  unfold optional? at h
  split at h
  · obtain rfl := Option.some.inj h
    cases ha
  · obtain rfl := Option.some.inj h
    cases ha
  · next j hj =>
    obtain ⟨b, hb, rfl⟩ := Option.map_eq_some_iff.1 h
    obtain rfl : b = a := Option.some.inj ha
    exact ⟨j, hb⟩

/-- Each item of a list was read. -/
theorem exists_read_of_mapM {α : Type} {read : Json → Option α} {js : List Json} {as : List α}
    (h : js.mapM read = some as) {a : α} (ha : a ∈ as) : ∃ j, read j = some a := by
  induction js generalizing as with
  | nil =>
    obtain rfl := Option.some.inj h
    cases ha
  | cons j js ih =>
    rw [List.mapM_cons] at h
    obtain ⟨b, hb, h⟩ := Option.bind_eq_some_iff.1 h
    obtain ⟨bs, hbs, h⟩ := Option.bind_eq_some_iff.1 h
    obtain rfl := Option.some.inj h
    rcases List.mem_cons.1 ha with rfl | ha
    · exact ⟨j, hb⟩
    · exact ih hbs ha

end Json

theorem Span.fits_of_ofJson? {j : Json} {s : Span} (h : ofJson? j = some s) : s.Fits := by
  unfold ofJson? at h
  split at h
  · obtain ⟨index, hindex, h⟩ := Option.bind_eq_some_iff.1 h
    obtain ⟨start, hstart, h⟩ := Option.bind_eq_some_iff.1 h
    obtain ⟨stop, hstop, h⟩ := Option.bind_eq_some_iff.1 h
    obtain rfl := Option.some.inj h
    exact ⟨Json.lt_size_of_toWord? hindex, Json.lt_size_of_toWord? hstart,
      Json.lt_size_of_toWord? hstop⟩
  · cases h

theorem Report.fits_of_ofJson? {j : Json} {r : Report} (h : ofJson? j = some r) : r.Fits := by
  unfold ofJson? at h
  split at h
  · obtain ⟨program, -, h⟩ := Option.bind_eq_some_iff.1 h
    obtain ⟨code, -, h⟩ := Option.bind_eq_some_iff.1 h
    obtain ⟨category, -, h⟩ := Option.bind_eq_some_iff.1 h
    obtain ⟨message, -, h⟩ := Option.bind_eq_some_iff.1 h
    obtain ⟨span, hspan, h⟩ := Option.bind_eq_some_iff.1 h
    obtain ⟨token, -, h⟩ := Option.bind_eq_some_iff.1 h
    obtain rfl := Option.some.inj h
    intro s hs
    obtain ⟨j, hj⟩ := Json.exists_read_of_optional? hspan hs
    exact Span.fits_of_ofJson? hj
  · cases h

namespace Diagnostics

theorem fits_of_ofJson? {j : Json} {d : Diagnostics} (h : ofJson? j = some d) : d.Fits := by
  unfold ofJson? at h
  split at h
  · obtain ⟨stored, hstored, h⟩ := Option.bind_eq_some_iff.1 h
    obtain ⟨total, htotal, h⟩ := Option.bind_eq_some_iff.1 h
    obtain rfl := Option.some.inj h
    refine ⟨fun r hr => ?_, Json.lt_size_of_toWord? htotal⟩
    obtain ⟨j, hj⟩ := Json.exists_read_of_mapM hstored hr
    exact Report.fits_of_ofJson? hj
  · cases h

/-- **What can be read.**  Whatever fits into 64-bit words is read from some text, and nothing
else is. -/
theorem exists_read?_iff {d : Diagnostics} :
    (∃ text, Json.read? ofJson? text = some d) ↔ d.Fits := by
  constructor
  · rintro ⟨text, h⟩
    obtain ⟨j, -, hj⟩ := Option.bind_eq_some_iff.1 h
    exact fits_of_ofJson? hj
  · intro h
    exact ⟨d.toJson.text, by rw [Json.read?_text, ofJson?_toJson h]⟩

/-! ## What is taken for granted -/

/-- The errors on one line, if the number of the others is not below zero. -/
def display? (d : Diagnostics) : Option String :=
  match d.first? with
  | none => some "no errors"
  | some r =>
      if d.total = 1 then some r.display
      else d.total.ppred.map fun others => r.display ++ " (and " ++ others.repr ++ " more)"

/-- The number of the others is below zero if there is a first error and the count is zero. -/
theorem display?_eq_some_iff {d : Diagnostics} :
    d.display? = some d.display ↔ ¬ (d.first?.isSome = true ∧ d.total = 0) := by
  unfold display? display
  cases d.first? with
  | none => simp
  | some r =>
    cases d.total with
    | zero => simp
    | succ n =>
      show (if n + 1 = 1 then _ else _) = _ ↔ _
      split <;> simp_all

/-- Each report that is pushed adds one to the count, and one to those kept as long as there is
room. -/
theorem length_stored_le_total_pushAll_iff (d : Diagnostics) (rs : List Report) :
    (d.pushAll rs).stored.length ≤ (d.pushAll rs).total ↔
      d.stored.length + min rs.length (maxStored - d.stored.length) ≤ d.total + rs.length := by
  rw [stored_pushAll, total_pushAll, List.length_append, List.length_take, Nat.min_comm]

theorem hasErrors_pushAll_eq_iff (d : Diagnostics) (rs : List Report) :
    (d.pushAll rs).hasErrors = (d.pushAll rs).first?.isSome ↔
      rs ≠ [] ∨ (d.total = 0 ↔ d.stored = []) := by
  rw [Bool.eq_iff_iff, hasErrors_pushAll, isSome_first?_pushAll]
  by_cases hrs : rs = []
  · simp only [hrs, ne_eq, not_true_eq_false, false_or]
    exact not_iff_not
  · simp only [hrs, ne_eq, not_false_eq_true, true_or]

theorem display?_pushAll_eq_iff (d : Diagnostics) (rs : List Report) :
    (d.pushAll rs).display? = some (d.pushAll rs).display ↔
      rs ≠ [] ∨ d.total ≠ 0 ∨ d.stored = [] := by
  rw [display?_eq_some_iff, isSome_first?_pushAll, total_pushAll]
  by_cases hrs : rs = []
  · simp only [hrs, ne_eq, not_true_eq_false, false_or, List.length_nil, Nat.add_zero]
    rw [not_and_or, not_not]
    exact Or.comm
  · have hpos := List.length_pos_of_ne_nil hrs
    exact iff_of_true (fun h => absurd h.2 (by omega)) (.inl hrs)

end Diagnostics

/-! ## The main result -/

/-- **When diagnostics add up that were read.**  Whatever fits into 64-bit words is read from some
text.  After some reports were pushed on it, there are diagnostics as long as the count is a 64-bit
word.  Of these

* the count is not less than the number of the reports kept exactly if the reports that were pushed
  make up for what was missing: each adds one to the count, and it adds one to those kept as well
  if there was room;
* there is a first report exactly if there was an error, if any report was pushed, or both or none
  of count and list were empty;
* the number of the other errors can be given exactly if any report was pushed, or the count was
  not zero or the list was empty. -/
theorem read_diagnostics_agree_iff (d : Diagnostics) (rs : List Report) :
    ((∃ text, Json.read? Diagnostics.ofJson? text = some d) ↔ d.Fits) ∧
    ∀ text, Json.read? Diagnostics.ofJson? text = some d →
      (d.pushAll? rs = none ↔ UInt64.size ≤ d.total + rs.length) ∧
      ∀ d', d.pushAll? rs = some d' →
        (d'.stored.length ≤ d'.total ↔
          d.stored.length + min rs.length (Diagnostics.maxStored - d.stored.length) ≤
            d.total + rs.length) ∧
        (d'.hasErrors = d'.first?.isSome ↔ rs ≠ [] ∨ (d.total = 0 ↔ d.stored = [])) ∧
        (d'.display? = some d'.display ↔ rs ≠ [] ∨ d.total ≠ 0 ∨ d.stored = []) := by
  refine ⟨Diagnostics.exists_read?_iff, fun text hread => ?_⟩
  have hfits : d.Fits := Diagnostics.exists_read?_iff.1 ⟨text, hread⟩
  rw [Diagnostics.pushAll?_eq hfits.total]
  refine ⟨?_, fun d' hd' => ?_⟩
  · rw [← Nat.not_lt]
    exact ite_eq_right_iff.trans (forall_congr' fun _ => iff_false_intro (by simp))
  obtain ⟨-, heq⟩ := Option.ite_none_right_eq_some.1 hd'
  obtain rfl := Option.some.inj heq
  exact ⟨d.length_stored_le_total_pushAll_iff rs, d.hasErrors_pushAll_eq_iff rs,
    d.display?_pushAll_eq_iff rs⟩

/-- A report without a place. -/
def plainReport : Report := .unlocated "p" .typeMismatch "m"

/-- The text of a report without a place. -/
def plainText : String :=
  "\x7b\"program\":\"p\",\"code\":301,\"category\":\"eval\",\"message\":\"m\"\x7d"

/-- **Texts of diagnostics that do not add up.**  Two reports may be given with a count of one.  One
report may be given with a count of zero: then there seems to be no error, and the number of the
others would be below zero.  No report may be given with a count of five, and then there is no first
one among the errors.  And the largest word may be given as a count, and then no report can be
pushed. -/
theorem read_diagnostics_disagree :
    Json.read? Diagnostics.ofJson?
      ("\x7b\"errors\":[" ++ plainText ++ "," ++ plainText ++ "],\"total_errors\":1\x7d") =
        some ⟨[plainReport, plainReport], 1⟩ ∧
    ¬ [plainReport, plainReport].length ≤ 1 ∧
    (Json.read? Diagnostics.ofJson?
        ("\x7b\"errors\":[" ++ plainText ++ "],\"total_errors\":0\x7d") =
          some ⟨[plainReport], 0⟩ ∧
      Diagnostics.hasErrors ⟨[plainReport], 0⟩ = false ∧
      Diagnostics.first? ⟨[plainReport], 0⟩ = some plainReport ∧
      Diagnostics.display? ⟨[plainReport], 0⟩ = none) ∧
    (Json.read? Diagnostics.ofJson? "\x7b\"errors\":[],\"total_errors\":5\x7d" = some ⟨[], 5⟩ ∧
      Diagnostics.hasErrors ⟨[], 5⟩ = true ∧ Diagnostics.first? ⟨[], 5⟩ = none) ∧
    Json.read? Diagnostics.ofJson?
      "\x7b\"errors\":[],\"total_errors\":18446744073709551615\x7d" =
        some ⟨[], 18446744073709551615⟩ ∧
    Diagnostics.push? ⟨[], 18446744073709551615⟩ plainReport = none := by
  refine ⟨by decide +kernel, by decide, ⟨by decide +kernel, rfl, rfl, rfl⟩,
    ⟨by decide +kernel, rfl, rfl⟩, by decide +kernel, by decide +kernel⟩

end WireLambda
