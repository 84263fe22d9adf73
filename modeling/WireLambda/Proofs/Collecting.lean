import WireLambda.Diagnostics

/-!
# Collecting reports

Diagnostics keep the first reports that are pushed on them, and count all of them.  As long as there
is room the list and the count agree, and from then on only the count goes up.  So it matters which
of the two is looked at: whether there was an error is told by the count, and the first error by
the list, while what is shown takes the first error from the list and the number of the others from
the count.

The list and the count are known exactly after any reports were pushed on any diagnostics
(`Diagnostics.stored_pushAll`, `Diagnostics.total_pushAll`), by induction on these reports; the
induction takes diagnostics as they come, full or not.  What is told follows without another one
(`Diagnostics.first?_pushAll`, `Diagnostics.hasErrors_pushAll`).  A first report stays the first
one.

`Diagnostics.Collects` says what diagnostics tell of all reports that came, kept or not.  What is
shown is there said of the reports themselves (`Report.displayAll`), with no mention of a list that
is cut or of a count.  Diagnostics that tell of some reports are determined by these
(`Diagnostics.collects_iff`), and they tell of more when more are pushed
(`Diagnostics.Collects.pushAll`).

The count is a 64-bit word.  `Diagnostics.push?` pushes a report only if it stays one, and
`Diagnostics.pushAll?_eq` says how many reports that is.

The main result is `pushed_reports_are_collected`.
-/

namespace WireLambda

/-- Some reports on one line: the first one, and how many others there are. -/
def Report.displayAll : List Report → String
  | [] => "no errors"
  | [r] => r.display
  | r :: rs => r.display ++ " (and " ++ rs.length.repr ++ " more)"

namespace Diagnostics

/-! ## Pushing -/

/-- Some reports, pushed one after another. -/
def pushAll (d : Diagnostics) (rs : List Report) : Diagnostics := rs.foldl push d

@[simp] theorem pushAll_nil (d : Diagnostics) : d.pushAll [] = d := rfl

@[simp] theorem pushAll_cons (d : Diagnostics) (r : Report) (rs : List Report) :
    d.pushAll (r :: rs) = (d.push r).pushAll rs := rfl

theorem pushAll_append (d : Diagnostics) (rs rs' : List Report) :
    d.pushAll (rs ++ rs') = (d.pushAll rs).pushAll rs' := List.foldl_append

/-- All reports are counted. -/
theorem total_pushAll (d : Diagnostics) (rs : List Report) :
    (d.pushAll rs).total = d.total + rs.length := by
  induction rs generalizing d with
  | nil => rfl
  | cons r rs ih =>
    rw [pushAll_cons, ih, total_push, List.length_cons, Nat.add_assoc, Nat.add_comm 1]

/-- As many reports are kept as there is room for. -/
theorem stored_pushAll (d : Diagnostics) (rs : List Report) :
    (d.pushAll rs).stored = d.stored ++ rs.take (maxStored - d.stored.length) := by
  induction rs generalizing d with
  | nil => rw [pushAll_nil, List.take_nil, List.append_nil]
  | cons r rs ih =>
    rw [pushAll_cons, ih, stored_push]
    by_cases hroom : d.stored.length < maxStored
    · have hleft : maxStored - d.stored.length = maxStored - (d.stored ++ [r]).length + 1 := by
        rw [List.length_append, List.length_singleton]
        omega
      rw [if_pos hroom, hleft, List.take_succ_cons, List.append_assoc, List.singleton_append]
    · have hfull : maxStored - d.stored.length = 0 := by omega
      rw [if_neg hroom, hfull, List.take_zero, List.take_zero]

/-- A report is pushed if the count is a 64-bit word then. -/
def push? (d : Diagnostics) (r : Report) : Option Diagnostics :=
  if d.total + 1 < UInt64.size then some (d.push r) else none

/-- Some reports, pushed one after another as long as the count is a 64-bit word. -/
def pushAll? (d : Diagnostics) (rs : List Report) : Option Diagnostics := rs.foldlM push? d

theorem pushAll?_cons (d : Diagnostics) (r : Report) (rs : List Report) :
    d.pushAll? (r :: rs) = (d.push? r).bind fun d => d.pushAll? rs := rfl

/-- Reports can be pushed until the count is the largest word. -/
theorem pushAll?_eq {d : Diagnostics} (hd : d.total < UInt64.size) (rs : List Report) :
    d.pushAll? rs = if d.total + rs.length < UInt64.size then some (d.pushAll rs) else none := by
  induction rs generalizing d with
  | nil => exact (if_pos hd).symm
  | cons r rs ih =>
    rw [pushAll?_cons, push?, List.length_cons]
    by_cases hroom : d.total + 1 < UInt64.size
    · have hcount : (d.push r).total + rs.length = d.total + (rs.length + 1) := by
        rw [total_push]
        omega
      rw [if_pos hroom, Option.bind_some, ih hroom, hcount, pushAll_cons]
    · rw [if_neg hroom, if_neg (by omega)]
      rfl

/-! ## What is told after a push -/

/-- The first report stays the first one.  Without one it is the first one pushed, since then there
is room. -/
theorem first?_pushAll (d : Diagnostics) (rs : List Report) :
    (d.pushAll rs).first? = d.first?.or rs.head? := by
  rw [first?, first?, stored_pushAll, List.head?_append]
  cases hstored : d.stored with
  | nil =>
    have hroom : maxStored - ([] : List Report).length ≠ 0 := by decide
    rw [List.head?_take, if_neg hroom]
  | cons r kept => rfl

/-- There is a first report as soon as one was pushed. -/
theorem isSome_first?_pushAll (d : Diagnostics) (rs : List Report) :
    (d.pushAll rs).first?.isSome = true ↔ rs ≠ [] ∨ d.stored ≠ [] := by
  rw [first?_pushAll, Option.isSome_or, Bool.or_eq_true, first?, List.isSome_head?,
    List.isSome_head?]
  exact Or.comm

theorem hasErrors_pushAll (d : Diagnostics) (rs : List Report) :
    (d.pushAll rs).hasErrors = true ↔ rs ≠ [] ∨ d.total ≠ 0 := by
  rw [hasErrors, decide_eq_true_iff, total_pushAll, Nat.add_pos_iff_pos_or_pos,
    List.length_pos_iff, Nat.pos_iff_ne_zero]
  exact Or.comm

/-! ## What is collected -/

/-- What diagnostics tell of all the reports that came. -/
structure Collects (d : Diagnostics) (rs : List Report) : Prop where
  /-- The first twenty are kept, in the order in which they came. -/
  stored : d.stored = rs.take 20
  length_stored : d.stored.length = min rs.length 20
  /-- All are counted. -/
  total : d.total = rs.length
  hasErrors : d.hasErrors = true ↔ 0 < rs.length
  isSome_first? : d.first?.isSome = true ↔ 0 < rs.length
  first? : d.first? = rs.head?
  /-- The number of the others is shown also if most of them were not kept. -/
  display : d.display = Report.displayAll rs

/-- What is shown depends on the first report and on the count. -/
theorem display_eq_displayAll {d : Diagnostics} {rs : List Report} (hfirst : d.first? = rs.head?)
    (htotal : d.total = rs.length) : d.display = Report.displayAll rs := by
  rw [Diagnostics.display, hfirst, htotal]
  cases rs with
  | nil => rfl
  | cons r others =>
    cases others with
    | nil => rfl
    | cons r' others =>
      have hmany : (r :: r' :: others).length ≠ 1 := by
        rw [List.length_cons, List.length_cons]
        omega
      rw [List.head?_cons]
      exact if_neg hmany

/-- Diagnostics on which only those reports were pushed tell of them. -/
theorem collects_pushAll_empty (rs : List Report) : (empty.pushAll rs).Collects rs := by
  have hstored : (empty.pushAll rs).stored = rs.take 20 := stored_pushAll empty rs
  have htotal : (empty.pushAll rs).total = rs.length :=
    (total_pushAll empty rs).trans (Nat.zero_add _)
  have hfirst : (empty.pushAll rs).first? = rs.head? := first?_pushAll empty rs
  exact {
    stored := hstored
    length_stored := by rw [hstored, List.length_take, Nat.min_comm]
    total := htotal
    hasErrors := by rw [Diagnostics.hasErrors, decide_eq_true_iff, htotal]
    isSome_first? := by rw [hfirst, List.isSome_head?, List.length_pos_iff]
    first? := hfirst
    display := display_eq_displayAll hfirst htotal }

/-- The reports that came leave no choice. -/
theorem collects_iff {d : Diagnostics} {rs : List Report} :
    d.Collects rs ↔ d = empty.pushAll rs := by
  constructor
  · intro h
    have hpushed := collects_pushAll_empty rs
    obtain ⟨stored, total⟩ := d
    obtain rfl : stored = _ := h.stored.trans hpushed.stored.symm
    obtain rfl : total = _ := h.total.trans hpushed.total.symm
    rfl
  · rintro rfl
    exact collects_pushAll_empty rs

/-- Diagnostics that tell of some reports go on to tell of those pushed on them. -/
theorem Collects.pushAll {d : Diagnostics} {rs : List Report} (h : d.Collects rs)
    (rs' : List Report) : (d.pushAll rs').Collects (rs ++ rs') := by
  obtain rfl := collects_iff.1 h
  rw [← pushAll_append]
  exact collects_pushAll_empty (rs ++ rs')

theorem collects_single (r : Report) : (single r).Collects [r] := collects_pushAll_empty [r]

end Diagnostics

/-! ## The main result -/

/-- **Capped collection.**  Any number of reports may be pushed where there are none, or where there
is one, which then counts as the first.  The first twenty of all these are kept, in their order,
and all are counted.  There was an error exactly if there was a report, and exactly then there is a
first one.  What is shown is the first report with the number of all the others, kept or not.

The count is a 64-bit word exactly as long as there are fewer than `2 ^ 64` reports. -/
theorem pushed_reports_are_collected (rs : List Report) :
    (Diagnostics.empty.pushAll rs).Collects rs ∧
    (∀ r, ((Diagnostics.single r).pushAll rs).Collects (r :: rs)) ∧
    (Diagnostics.empty.pushAll? rs =
      if rs.length < UInt64.size then some (Diagnostics.empty.pushAll rs) else none) ∧
    ∀ r, (Diagnostics.single r).pushAll? rs =
      if rs.length + 1 < UInt64.size then some ((Diagnostics.single r).pushAll rs) else none := by
  refine ⟨Diagnostics.collects_pushAll_empty rs, fun r => ?_, ?_, fun r => ?_⟩
  · exact (Diagnostics.collects_single r).pushAll rs
  · have hnone : Diagnostics.empty.total < UInt64.size := by decide
    have hcount : Diagnostics.empty.total + rs.length = rs.length := Nat.zero_add _
    rw [Diagnostics.pushAll?_eq hnone, hcount]
  · have hone : (Diagnostics.single r).total < UInt64.size := by
      show 1 < UInt64.size
      decide
    have hcount : (Diagnostics.single r).total + rs.length = rs.length + 1 := Nat.add_comm _ _
    rw [Diagnostics.pushAll?_eq hone, hcount]

/-- The five errors that were not kept are among the others that are shown. -/
example :
    (Diagnostics.empty.pushAll
      (List.replicate 25 (.unlocated "p" .unhandledIndicator "m"))).display =
        "p: E100 [decode] m (and 24 more)" := by
  decide +kernel

end WireLambda
