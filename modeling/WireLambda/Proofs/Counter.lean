import WireLambda.Proofs.Metering

/-!
# The counter of visits

An evaluator counts visits in a 64-bit word.  Before each visit it adds one to the count and then
asks whether the count is above the limit (`Evaluator.tick`), and nothing else keeps the word from
overflowing.  This file says when it does.

A call comes to a visit if the visits before were allowed and were not enough (`Call.Makes`), and
the counter has room for the call if none of these visits begins at the largest word (`Call.Fits`).
As long as there is room, a call has an answer and the count goes up by its visits
(`Call.exists_run_of_fits`).

The largest word is a limit that no count is above.  Under it no visit is refused, and a call that
does not end by the rules has no answer: the count comes round to zero again and again.

Under any other limit `L` the first call that asks for more than is left stops one above the limit,
and each further call that has to visit a node adds one.  So after the limit is passed the count is
`L` and the number of these calls (`Evaluator.overruns`), and the word overflows with the call that
makes this number `2 ^ 64`.  From there on the evaluator has its whole limit to spend again.

The main results are `counter_fits_iff`, which puts this together, and its refutation
`counter_comes_round` of the hope that a counter with such a limit cannot overflow.
-/

namespace WireLambda

namespace Call

/-! ## One call -/

/-- Whether a call comes to a visit after `i` others: these were allowed, and were not enough. -/
def Makes (c : Call) (ev : Evaluator) (i : Nat) : Prop :=
  ev.Allows i ∧ Machine.run i c.start = none

/-- Whether the counter has room for the visits of a call: at none of the counts that it goes
through is one more too many for a word. -/
def Fits (c : Call) (ev : Evaluator) : Prop :=
  ∀ i, c.Makes ev i → (ev.spend i).gasUsed.toNat + 1 < UInt64.size

/-- Whether a call asks for more visits than are left of the limit. -/
def Overruns (c : Call) (ev : Evaluator) : Prop := Machine.run ev.remaining c.start = none

instance (c : Call) (ev : Evaluator) : Decidable (c.Overruns ev) :=
  decidable_of_iff ((Machine.run ev.remaining c.start).isNone = true) Option.isNone_iff_eq_none

variable {c : Call} {ev ev' : Evaluator} {answer : Except EvalError Value}

/-- A call that comes to an outcome makes the visits that the outcome costs. -/
theorem makes_iff_of_computes {outcome : Except Fault Value} {n : Nat}
    (h : c.Computes outcome n) (hallowed : ev.Allows n) (i : Nat) : c.Makes ev i ↔ i < n := by
  constructor
  · intro hi
    exact machine_run_eq_none_iff.1 hi.2 outcome n h
  · intro hi
    refine ⟨hallowed.mono (Nat.le_of_lt hi), machine_run_eq_none_iff.2 fun o m hm => ?_⟩
    obtain ⟨-, rfl⟩ := computes_unique h hm
    exact hi

/-- A call that is cut off makes the visits that are allowed, and the one that is refused. -/
theorem makes_iff_of_refused {n : Nat} (hallowed : ev.Allows n) (hrefused : ¬ ev.Allows (n + 1))
    (h : ∀ outcome m, c.Computes outcome m → n < m) (i : Nat) : c.Makes ev i ↔ i < n + 1 := by
  constructor
  · intro hi
    exact Nat.lt_of_not_le fun hle => hrefused (hi.1.mono hle)
  · intro hi
    refine ⟨hallowed.mono (Nat.le_of_lt_succ hi), machine_run_eq_none_iff.2 fun o m hm => ?_⟩
    exact Nat.lt_of_le_of_lt (Nat.le_of_lt_succ hi) (h o m hm)

/-- The counter has room for some visits if their number can be added to the count. -/
theorem fits_iff_of_makes {n : Nat} (h : ∀ i, c.Makes ev i ↔ i < n) :
    c.Fits ev ↔ ev.gasUsed.toNat + n < UInt64.size := by
  have hword := ev.gasUsed.toNat_lt_size
  constructor
  · intro hfits
    refine Nat.lt_of_not_le fun hfull => ?_
    -- the visit that begins at the largest count
    have hlast := hfits (UInt64.size - 1 - ev.gasUsed.toNat) ((h _).2 (by omega))
    rw [Evaluator.toNat_gasUsed_spend (by omega)] at hlast
    omega
  · intro hroom i hi
    have hi := (h i).1 hi
    rw [Evaluator.toNat_gasUsed_spend (by omega)]
    omega

/-- **While there is room**, a call has an answer, and the count goes up by its visits. -/
theorem exists_run_of_fits (h : c.Fits ev) :
    ∃ answer n, c.run ev = some (answer, ev.spend n) ∧ (∀ i, c.Makes ev i ↔ i < n) ∧
      (ev.spend n).gasUsed.toNat = ev.gasUsed.toNat + n := by
  have hcourse := c.course ev
  generalize c.run ev = result at hcourse ⊢
  cases hcourse with
  | ends hallowed hc =>
    have hmakes := makes_iff_of_computes hc hallowed
    exact ⟨_, _, rfl, hmakes,
      Evaluator.toNat_gasUsed_spend ((fits_iff_of_makes hmakes).1 h)⟩
  | cut hallowed hrefused hbeyond =>
    have hmakes := makes_iff_of_refused hallowed hrefused hbeyond
    exact ⟨_, _, rfl, hmakes,
      Evaluator.toNat_gasUsed_spend ((fits_iff_of_makes hmakes).1 h)⟩
  | endless hlargest hendless =>
    have hword := ev.gasUsed.toNat_lt_size
    -- a visit begins at the largest count
    have hlast := h (UInt64.size - 1 - ev.gasUsed.toNat) ⟨Evaluator.forall_allows_iff.2 hlargest _,
      machine_run_eq_none_iff.2 fun o n hc => absurd hc (hendless o n)⟩
    rw [Evaluator.toNat_gasUsed_spend (by omega)] at hlast
    omega

theorem limits_of_run (h : c.run ev = some (answer, ev')) : ev'.limits = ev.limits := by
  obtain ⟨-, -, -, -, -, rfl⟩ | ⟨-, -, -, -, -, rfl⟩ := ends_or_cut_of_run h
  · rfl
  · rfl

/-- A call that the gas was not enough for leaves the evaluator above the limit. -/
theorem lt_of_gasExhausted (h : c.run ev = some (.error .gasExhausted, ev')) :
    ev'.limits.gasLimit < ev'.gasUsed := by
  obtain ⟨n, hallowed, hrefused, -, rfl⟩ := run_eq_gasExhausted_iff.1 h
  refine UInt64.not_le.1 fun hle => hrefused (Evaluator.allows_add_iff.2 ⟨hallowed, ?_⟩)
  rw [Evaluator.spend_add] at hle
  exact Evaluator.allows_one_iff.2 hle

/-- A call that has no node to visit has its value already. -/
theorem computes_of_not_visits (hc : ¬ c.Visits) : ∃ outcome, c.Computes outcome 0 := by
  cases c with
  | evalExpr e env stack => exact absurd trivial hc
  | evaluate e => exact absurd trivial hc
  | force v env stack =>
    cases v with
    | scalar s => exact ⟨_, .forceScalar⟩
    | deferred e => exact absurd rfl hc

theorem overruns_iff :
    c.Overruns ev ↔ ∀ outcome n, c.Computes outcome n → ev.remaining < n :=
  machine_run_eq_none_iff

/-- A call that asks for no more than is left fits, and the limit is not passed. -/
theorem fits_of_not_overruns (hopen : ev.gasUsed ≤ ev.limits.gasLimit) (h : ¬ c.Overruns ev) :
    c.Fits ev ∧ ∃ answer ev', c.run ev = some (answer, ev') ∧
      ev'.gasUsed ≤ ev'.limits.gasLimit := by
  have hlimit := ev.limits.gasLimit.toNat_lt_size
  rcases c.computes_or_run_eq_none ev.remaining with ⟨o, n, hn, hc⟩ | hnone
  · have hle := UInt64.le_iff_toNat_le.1 hopen
    unfold Evaluator.remaining at hn
    have hallowed : ev.Allows n := (Evaluator.allows_iff hopen).2 (.inl (by omega))
    refine ⟨(fits_iff_of_makes (makes_iff_of_computes hc hallowed)).2 (by omega), _, _,
      run_of_allowed hc hallowed, ?_⟩
    rw [UInt64.le_iff_toNat_le, Evaluator.toNat_gasUsed_spend (by omega)]
    show _ ≤ ev.limits.gasLimit.toNat
    omega
  · exact absurd hnone h

/-- A call that asks for more than is left fits if there is a count above the limit, where it
stops then. -/
theorem fits_iff_of_overruns (hopen : ev.gasUsed ≤ ev.limits.gasLimit) (h : c.Overruns ev) :
    c.Fits ev ↔ ev.limits.gasLimit.toNat + 1 < UInt64.size := by
  have hlimit := ev.limits.gasLimit.toNat_lt_size
  have hle := UInt64.le_iff_toNat_le.1 hopen
  have hlast : ev.gasUsed.toNat + ev.remaining = ev.limits.gasLimit.toNat := by
    unfold Evaluator.remaining
    omega
  have hallowed : ev.Allows ev.remaining := (Evaluator.allows_iff hopen).2 (.inl (by omega))
  constructor
  · intro hfits
    -- the visit that begins at the limit
    have hcount := hfits _ ⟨hallowed, h⟩
    rwa [Evaluator.toNat_gasUsed_spend (by omega), hlast] at hcount
  · intro hword
    have hrefused : ¬ ev.Allows (ev.remaining + 1) := by
      rw [Evaluator.allows_iff hopen]
      omega
    refine (fits_iff_of_makes (makes_iff_of_refused hallowed hrefused (overruns_iff.1 h))).2 ?_
    omega

/-- Where it fits, a call that asks for more than is left stops one above the limit. -/
theorem answers_of_overruns (hopen : ev.gasUsed ≤ ev.limits.gasLimit) (h : c.Overruns ev)
    (hlimit : ev.limits.gasLimit.toNat + 1 < UInt64.size) :
    ev.Answers (c.run ev) (.error .gasExhausted) (ev.limits.gasLimit.toNat + 1) := by
  refine answers_of_lt (by omega) hopen fun outcome n hc => ?_
  have hcost := overruns_iff.1 h outcome n hc
  unfold Evaluator.remaining at hcost
  omega

/-- Above the limit, a call that has to visit a node fits if one more can be counted. -/
theorem fits_iff_of_exhausted (hc : c.Visits) (hlt : ev.limits.gasLimit < ev.gasUsed) :
    c.Fits ev ↔ ev.gasUsed.toNat + 1 < UInt64.size := by
  have hnone : Machine.run 0 c.start = none :=
    machine_run_eq_none_iff.2 fun outcome n h => one_le_of_computes hc h
  constructor
  · intro hfits
    have hcount := hfits 0 ⟨ev.allows_zero, hnone⟩
    rwa [Evaluator.spend_zero] at hcount
  · intro hroom
    have hrefused := Evaluator.not_allows_one (UInt64.le_of_lt hlt) hroom
    exact (fits_iff_of_makes (makes_iff_of_refused ev.allows_zero hrefused
      (machine_run_eq_none_iff.1 hnone))).2 hroom

/-- A call that has no node to visit fits, and leaves the evaluator as it is. -/
theorem fits_of_not_visits (hc : ¬ c.Visits) (ev : Evaluator) :
    c.Fits ev ∧ ∃ answer, c.run ev = some (answer, ev) := by
  obtain ⟨o, ho⟩ := computes_of_not_visits hc
  refine ⟨(fits_iff_of_makes (makes_iff_of_computes ho ev.allows_zero)).2
    ev.gasUsed.toNat_lt_size, o.mapError .fault, ?_⟩
  rw [run_of_allowed ho ev.allows_zero, Evaluator.spend_zero]

end Call

namespace Evaluator

/-! ## Some calls, one after another -/

/-- The evaluator after some calls, unless one of them has no answer. -/
def afterCalls (ev : Evaluator) : List Call → Option Evaluator
  | [] => some ev
  | c :: cs => (c.run ev).bind fun r => r.2.afterCalls cs

/-- Whether the counter has room for the visits of some calls, made one after another. -/
def FitsCalls (ev : Evaluator) (cs : List Call) : Prop :=
  ∀ before c after, cs = before ++ c :: after →
    ∀ ev' ∈ ev.afterCalls before, c.Fits ev'

/-- How many calls overrun the limit: the first one that asks for more than is left, and all calls
after it that have to visit a node. -/
def overruns (ev : Evaluator) : List Call → Nat
  | [] => 0
  | c :: cs =>
      if c.Overruns ev then cs.countP (fun c => c.Visits) + 1
      else (c.run ev).elim 0 fun r => r.2.overruns cs

variable {ev ev' : Evaluator} {c : Call} {cs cs' : List Call} {answer : Except EvalError Value}

@[simp] theorem afterCalls_nil (ev : Evaluator) : ev.afterCalls [] = some ev := rfl

theorem afterCalls_cons (hrun : c.run ev = some (answer, ev')) (cs : List Call) :
    ev.afterCalls (c :: cs) = ev'.afterCalls cs := by
  rw [afterCalls, hrun, Option.bind_some]

theorem afterCalls_append (ev : Evaluator) (cs cs' : List Call) :
    ev.afterCalls (cs ++ cs') = (ev.afterCalls cs).bind fun ev' => ev'.afterCalls cs' := by
  induction cs generalizing ev with
  | nil => rfl
  | cons c cs ih =>
    rw [List.cons_append, afterCalls, afterCalls, Option.bind_assoc]
    exact congrArg _ (funext fun r => ih r.2)

theorem fitsCalls_nil (ev : Evaluator) : ev.FitsCalls [] := by
  intro before c after h
  cases before <;> cases h

theorem fitsCalls_cons_iff (hrun : c.run ev = some (answer, ev')) :
    ev.FitsCalls (c :: cs) ↔ c.Fits ev ∧ ev'.FitsCalls cs := by
  constructor
  · intro h
    refine ⟨h [] c cs rfl ev rfl, fun before c' after heq last hlast => ?_⟩
    refine h (c :: before) c' after (by rw [heq, List.cons_append]) last ?_
    rwa [afterCalls_cons hrun]
  · intro h before c' after heq last hlast
    rcases h with ⟨hc, hcs⟩
    cases before with
    | nil =>
      obtain ⟨rfl, rfl⟩ := List.cons.inj heq
      obtain rfl := Option.some.inj hlast
      exact hc
    | cons b before =>
      obtain ⟨rfl, hrest⟩ := List.cons.inj heq
      rw [afterCalls_cons hrun] at hlast
      exact hcs before c' after hrest last hlast

theorem FitsCalls.head (h : ev.FitsCalls (c :: cs)) : c.Fits ev := h [] c cs rfl ev rfl

/-- What follows some calls has room as well. -/
theorem FitsCalls.drop (h : ev.FitsCalls (cs ++ cs')) (hev : ev.afterCalls cs = some ev') :
    ev'.FitsCalls cs' := by
  intro before c after heq last hlast
  refine h (cs ++ before) c after (by rw [heq, List.append_assoc]) last ?_
  rwa [afterCalls_append, hev, Option.bind_some]

/-- **While there is room**, some calls have all their answers, the limits stay, and the count does
not go down. -/
theorem exists_afterCalls (h : ev.FitsCalls (cs ++ cs')) :
    ∃ ev', ev.afterCalls cs = some ev' ∧ ev'.limits = ev.limits ∧
      ev.gasUsed.toNat ≤ ev'.gasUsed.toNat := by
  induction cs generalizing ev with
  | nil => exact ⟨ev, rfl, rfl, Nat.le_refl _⟩
  | cons c cs ih =>
    obtain ⟨answer, n, hrun, -, hgas⟩ := Call.exists_run_of_fits h.head
    obtain ⟨-, hrest⟩ := (fitsCalls_cons_iff hrun).1 h
    obtain ⟨last, hlast, hlimits, hle⟩ := ih hrest
    exact ⟨last, (afterCalls_cons hrun cs).trans hlast, hlimits, by omega⟩

/-- While there is room, an evaluator that has run out of gas stays above the limit. -/
theorem lt_gasUsed_of_gasExhausted {last : Evaluator} (h : ev.FitsCalls (c :: (cs ++ cs')))
    (hrun : c.run ev = some (.error .gasExhausted, ev'))
    (hlast : ev'.afterCalls cs = some last) : last.limits.gasLimit < last.gasUsed := by
  obtain ⟨-, hrest⟩ := (fitsCalls_cons_iff hrun).1 h
  obtain ⟨last', hlast', hlimits, hle⟩ := exists_afterCalls hrest
  obtain rfl := Option.some.inj (hlast.symm.trans hlast')
  have hpassed := Call.lt_of_gasExhausted hrun
  rw [UInt64.lt_iff_toNat_lt] at hpassed ⊢
  rw [hlimits]
  omega

/-- **Above the limit** each call that has to visit a node adds one. -/
theorem fitsCalls_iff_of_exhausted (hlt : ev.limits.gasLimit < ev.gasUsed) (cs : List Call) :
    ev.FitsCalls cs ↔ ev.gasUsed.toNat + cs.countP (fun c => c.Visits) < UInt64.size := by
  induction cs generalizing ev with
  | nil => exact iff_of_true (fitsCalls_nil ev) ev.gasUsed.toNat_lt_size
  | cons c cs ih =>
    rw [List.countP_cons]
    by_cases hc : c.Visits
    · rw [if_pos (decide_eq_true hc)]
      have hfits := Call.fits_iff_of_exhausted hc hlt
      by_cases hroom : ev.gasUsed.toNat + 1 < UInt64.size
      · have hrun := Call.run_of_full hc (UInt64.le_of_lt hlt) hroom
        have hgas := toNat_gasUsed_spend hroom
        have hafter : (ev.spend 1).limits.gasLimit < (ev.spend 1).gasUsed := by
          rw [UInt64.lt_iff_toNat_lt] at hlt ⊢
          rw [hgas]
          exact Nat.lt_succ_of_lt hlt
        rw [fitsCalls_cons_iff hrun, hfits, ih hafter, hgas]
        omega
      · constructor
        · intro h
          exact absurd (hfits.1 h.head) hroom
        · omega
    · obtain ⟨hfits, answer, hrun⟩ := Call.fits_of_not_visits hc ev
      rw [if_neg (by simpa using hc), fitsCalls_cons_iff hrun, ih hlt]
      exact and_iff_right hfits

/-- **From below the limit** there is room exactly if the limit and the calls that overrun it are
together a word.  The induction is on the calls: up to the first that overruns the limit the count
stays below it, and from there on the evaluator is above it. -/
theorem fitsCalls_iff (hopen : ev.gasUsed ≤ ev.limits.gasLimit) (cs : List Call) :
    ev.FitsCalls cs ↔ ev.limits.gasLimit.toNat + ev.overruns cs < UInt64.size := by
  induction cs generalizing ev with
  | nil => exact iff_of_true (fitsCalls_nil ev) ev.limits.gasLimit.toNat_lt_size
  | cons c cs ih =>
    rw [overruns]
    by_cases hc : c.Overruns ev
    · rw [if_pos hc]
      have hfits := Call.fits_iff_of_overruns hopen hc
      by_cases hroom : ev.limits.gasLimit.toNat + 1 < UInt64.size
      · obtain ⟨ev', hrun, hlimits, hgas⟩ := Call.answers_of_overruns hopen hc hroom
        have hafter : ev'.limits.gasLimit < ev'.gasUsed := by
          rw [UInt64.lt_iff_toNat_lt, hgas, hlimits]
          exact Nat.lt_succ_self _
        rw [fitsCalls_cons_iff hrun, hfits, fitsCalls_iff_of_exhausted hafter, hgas]
        omega
      · constructor
        · intro h
          exact absurd (hfits.1 h.head) hroom
        · omega
    · obtain ⟨hfits, answer, ev', hrun, hafter⟩ := Call.fits_of_not_overruns hopen hc
      rw [if_neg hc, hrun, fitsCalls_cons_iff hrun, ih hafter, Call.limits_of_run hrun]
      exact and_iff_right hfits

/-- Under a limit of zero no visit is allowed, until the counter is full. -/
theorem afterCalls_replicate (hc : c.Visits) (hlimit : ev.limits.gasLimit = 0) {k : Nat}
    (hk : ev.gasUsed.toNat + k < UInt64.size) :
    ev.afterCalls (List.replicate k c) = some (ev.spend k) := by
  induction k generalizing ev with
  | zero => rw [List.replicate_zero, afterCalls_nil, spend_zero]
  | succ k ih =>
    have hfull : ev.limits.gasLimit ≤ ev.gasUsed := by
      rw [hlimit]
      exact UInt64.zero_le
    have hgas : (ev.spend 1).gasUsed.toNat = ev.gasUsed.toNat + 1 :=
      toNat_gasUsed_spend (by omega)
    have hlimit' : (ev.spend 1).limits.gasLimit = 0 := hlimit
    rw [List.replicate_succ, afterCalls_cons (c.run_of_full hc hfull (by omega)),
      ih hlimit' (by omega), ← spend_add, Nat.add_comm]

end Evaluator

/-! ## The main results -/

/-- **When the counter overflows.**  Let some calls be made, one after another, on an evaluator that
has counted nothing.

* The counter has room for all their visits exactly if the limit, and the number of the calls that
  overrun it, are together a word.
* If so, then each call has an answer, and the count goes up by the visits that it makes.  A call
  that does not end by the rules is answered by the exhaustion of the gas, and once a call was
  answered so, every call is that has to visit a node, for one visit each.
* If not, a call may have no answer at all: it goes on for ever exactly under the largest word as a
  limit, if it does not end by the rules. -/
theorem counter_fits_iff (limits : Limits) (cs : List Call) :
    ((Evaluator.new limits).FitsCalls cs ↔
      limits.gasLimit.toNat + (Evaluator.new limits).overruns cs < UInt64.size) ∧
    ((Evaluator.new limits).FitsCalls cs → ∀ before c after, cs = before ++ c :: after →
      ∃ ev answer n, (Evaluator.new limits).afterCalls before = some ev ∧
        c.run ev = some (answer, ev.spend n) ∧
        (∀ i, c.Makes ev i ↔ i < n) ∧
        (ev.spend n).gasUsed.toNat = ev.gasUsed.toNat + n ∧
        ((∀ outcome n, ¬ c.Computes outcome n) → answer = .error .gasExhausted) ∧
        ∀ first c' rest, before = first ++ c' :: rest →
          ∀ ev₁ ev₂, (Evaluator.new limits).afterCalls first = some ev₁ →
            c'.run ev₁ = some (.error .gasExhausted, ev₂) →
            c.Visits → answer = .error .gasExhausted ∧ n = 1) ∧
    ∀ (ev : Evaluator) (c : Call), ev.limits = limits →
      (c.run ev = none ↔
        limits.gasLimit.toNat + 1 = UInt64.size ∧ ∀ outcome n, ¬ c.Computes outcome n) := by
  have hopen : (Evaluator.new limits).gasUsed ≤ (Evaluator.new limits).limits.gasLimit :=
    UInt64.zero_le
  refine ⟨Evaluator.fitsCalls_iff hopen cs, fun hfits before c after heq => ?_,
    fun ev c hlimits => hlimits ▸ Call.run_eq_none_iff⟩
  rw [heq] at hfits
  obtain ⟨ev, hev, -⟩ := Evaluator.exists_afterCalls hfits
  have hc : c.Fits ev := (hfits.drop hev).head
  obtain ⟨answer, n, hrun, hmakes, hgas⟩ := Call.exists_run_of_fits hc
  refine ⟨ev, answer, n, hev, hrun, hmakes, hgas, fun hendless => ?_,
    fun first c' rest hbefore ev₁ ev₂ hfirst hexhausted hvisits => ?_⟩
  · refine Classical.byContradiction fun hne => ?_
    obtain ⟨outcome, rfl⟩ := exists_mapError_of_ne hne
    obtain ⟨m, hm⟩ := Call.computes_of_run hrun
    exact hendless outcome m hm
  · rw [hbefore] at hev hfits
    have hlt : ev.limits.gasLimit < ev.gasUsed := by
      rw [List.append_assoc, List.cons_append] at hfits
      rw [Evaluator.afterCalls_append, hfirst, Option.bind_some,
        Evaluator.afterCalls_cons hexhausted] at hev
      exact Evaluator.lt_gasUsed_of_gasExhausted (hfits.drop hfirst) hexhausted hev
    have hroom := (Call.fits_iff_of_exhausted hvisits hlt).1 hc
    have hfull := Call.run_of_full hvisits (UInt64.le_of_lt hlt) hroom
    obtain ⟨hanswer, hspent⟩ := Prod.mk.inj (Option.some.inj (hrun.symm.trans hfull))
    refine ⟨hanswer, ?_⟩
    rw [hspent, Evaluator.toNat_gasUsed_spend hroom] at hgas
    omega

/-- A call that looks up a variable which is bound to itself. -/
def lookUpSelf : Call := .force (.deferred (.var ⟨1⟩)) selfBound []

/-- A call that visits one node. -/
def oneVisit : Call := .evaluate (.literal (.bool true))

/-- **The counter comes round.**  Under the largest word as a limit, a single call that does not end
makes the counter overflow, and no visit of it is refused.  And under a limit of zero, the visits of
`2 ^ 64 - 1` calls are refused, of which each adds one to the count.  The next visit makes the
counter come round to zero, and is allowed. -/
theorem counter_comes_round :
    (¬ (Evaluator.new ⟨18446744073709551615⟩).FitsCalls [lookUpSelf] ∧
      lookUpSelf.run (.new ⟨18446744073709551615⟩) = none) ∧
    (Evaluator.new ⟨0⟩).afterCalls (List.replicate (UInt64.size - 2) oneVisit) =
      some ⟨⟨0⟩, 18446744073709551614⟩ ∧
    oneVisit.run ⟨⟨0⟩, 18446744073709551614⟩ =
      some (.error .gasExhausted, ⟨⟨0⟩, 18446744073709551615⟩) ∧
    oneVisit.run ⟨⟨0⟩, 18446744073709551615⟩ = some (.ok (.scalar (.bool true)), ⟨⟨0⟩, 0⟩) := by
  have hrun : ∀ budget, Machine.run budget lookUpSelf.start = none :=
    fun budget => Machine.run_selfBound budget [] .result []
  have hendless : lookUpSelf.run (.new ⟨18446744073709551615⟩) = none :=
    Call.run_eq_none_iff.2 ⟨rfl, fun outcome n h =>
      Nat.lt_irrefl n (Call.machine_run_eq_none_iff.1 (hrun n) outcome n h)⟩
  refine ⟨⟨fun hfits => ?_, hendless⟩, ?_,
    Evaluator.run_of_cut (n := 0) (by decide) (by decide) rfl,
    .trans (Evaluator.run_of_ends (n := 1) (by decide) rfl) rfl⟩
  · obtain ⟨answer, n, hanswer, -⟩ := Call.exists_run_of_fits hfits.head
    rw [hendless] at hanswer
    cases hanswer
  · have hvisits : oneVisit.Visits := trivial
    have hcalls := @Evaluator.afterCalls_replicate (.new ⟨0⟩) oneVisit hvisits rfl
      (UInt64.size - 2) (by decide)
    rw [hcalls]
    rfl

end WireLambda
