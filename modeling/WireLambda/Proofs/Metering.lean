import WireLambda.Outcome
import WireLambda.Proofs.Calls

/-!
# What a gas limit does

An evaluator counts visits in 64-bit words and asks before each of them whether the count is
within the limit.  This file says what that comes to in terms of the rules, which know of no
limit.

Every call takes one of three courses.  An outcome that the rules give within the visits that are
allowed is the outcome of the call, and its cost is added to the count (`Call.run_of_allowed`).
Otherwise the call is cut off at the first visit that is refused, which is counted as well
(`Call.run_of_refused`).  If no visit is refused at all, then the call has no answer unless the
rules have one (`Call.run_of_endless`).

## Main results

* `evalExpr_new_eq_iff_computes`: an unused evaluator with a limit gives exactly the
  outcomes of the rules that cost no more than the limit, each with its cost, and runs out
  of gas exactly where the rules have none.  Under the largest word, which is no limit, it gives
  all outcomes of the rules, and nothing exactly where the rules have none.
* `gas_only_cuts`: the limit and the gas used before decide only whether a run is cut.  One
  outcome and one cost, or divergence, account for every limit and every count; an evaluator
  that is exhausted stays so; and programs that share an evaluator come out as they would
  apart, each on what the ones before it have left.
-/

namespace WireLambda

namespace Evaluator

/-! ## What is left -/

/-- What is left of the limit. -/
def remaining (ev : Evaluator) : Nat := ev.limits.gasLimit.toNat - ev.gasUsed.toNat

/-- The visits that are allowed are those that are left of the limit, as long as there is a count
above the limit and the counter has room for one more visit. -/
theorem allows_iff_le_remaining {ev : Evaluator}
    (hroom : max ev.gasUsed.toNat ev.limits.gasLimit.toNat + 1 < UInt64.size) {n : Nat} :
    ev.Allows n ↔ n ≤ ev.remaining := by
  unfold remaining
  by_cases hopen : ev.gasUsed ≤ ev.limits.gasLimit
  · rw [allows_iff hopen]
    rw [UInt64.le_iff_toNat_le] at hopen
    omega
  · have hfull : ev.limits.gasLimit ≤ ev.gasUsed := UInt64.le_of_lt (UInt64.not_le.1 hopen)
    rw [UInt64.le_iff_toNat_le] at hopen
    constructor
    · intro h
      refine Nat.le_of_not_lt fun hn => ?_
      exact not_allows_one hfull (by omega) (h.mono (by omega))
    · intro h
      obtain rfl : n = 0 := by omega
      exact ev.allows_zero

/-- An unused evaluator allows as many visits as its limit says. -/
theorem allows_new_iff {limits : Limits} {n : Nat} :
    (new limits).Allows n ↔
      n ≤ limits.gasLimit.toNat ∨ limits.gasLimit.toNat + 1 = UInt64.size := by
  have hopen : (new limits).gasUsed ≤ (new limits).limits.gasLimit := UInt64.zero_le
  have hzero : (new limits).gasUsed.toNat = 0 := rfl
  rw [allows_iff hopen, hzero, Nat.zero_add]
  rfl

theorem spend_new (limits : Limits) (n : Nat) :
    (new limits).spend n = ⟨limits, UInt64.ofNat n⟩ := by
  simp [spend, new]

/-- What an unused evaluator counts, if that is a word. -/
theorem toNat_gasUsed_new (limits : Limits) {n : Nat} (h : n < UInt64.size) :
    ((new limits).spend n).gasUsed.toNat = n := by
  rw [spend_new]
  exact UInt64.toNat_ofNat_of_lt h

end Evaluator

/-- Faults are told apart from each other by the caller. -/
theorem mapError_fault_injective {o o' : Except Fault Value}
    (h : o.mapError EvalError.fault = o'.mapError EvalError.fault) : o = o' := by
  cases o' with
  | ok v => exact mapError_eq_ok_iff.1 h
  | error fault =>
    obtain ⟨fault', rfl, hfault⟩ := mapError_eq_error_iff.1 h
    rw [EvalError.fault.inj hfault]

/-- A fault is told apart from exhaustion by the caller. -/
theorem mapError_fault_ne_gasExhausted (o : Except Fault Value) :
    o.mapError EvalError.fault ≠ .error .gasExhausted := by
  intro h
  obtain ⟨fault, -, hfault⟩ := mapError_eq_error_iff.1 h
  cases hfault

/-- An answer that is not exhaustion is an outcome by the rules. -/
theorem exists_mapError_of_ne {answer : Except EvalError Value}
    (h : answer ≠ .error .gasExhausted) :
    ∃ outcome : Except Fault Value, answer = outcome.mapError .fault := by
  cases answer with
  | ok v => exact ⟨.ok v, rfl⟩
  | error e =>
    cases e with
    | fault fault => exact ⟨.error fault, rfl⟩
    | gasExhausted => exact absurd rfl h

namespace Call

/-! ## The courses of a call -/

section Courses

variable {c : Call} {ev : Evaluator} {outcome : Except Fault Value}

/-- An outcome within the visits that are allowed is the outcome of the call, at its cost. -/
theorem run_of_allowed {n : Nat} (h : c.Computes outcome n) (hallowed : ev.Allows n) :
    c.run ev = some (outcome.mapError .fault, ev.spend n) := by
  rw [run_eq]
  exact Evaluator.run_of_ends hallowed (machine_run_exact_iff.2 h)

/-- A call without an outcome before the first visit that is refused is cut off there. -/
theorem run_of_refused {n : Nat} (hallowed : ev.Allows n) (hrefused : ¬ ev.Allows (n + 1))
    (h : ∀ outcome m, c.Computes outcome m → n < m) :
    c.run ev = some (.error .gasExhausted, ev.spend (n + 1)) := by
  rw [run_eq]
  exact Evaluator.run_of_cut hallowed hrefused (machine_run_eq_none_iff.2 h)

/-- Under the largest word a call without an outcome goes on for ever. -/
theorem run_of_endless (hlargest : ev.limits.gasLimit.toNat + 1 = UInt64.size)
    (h : ∀ outcome n, ¬ c.Computes outcome n) : c.run ev = none := by
  rw [run_eq]
  exact Evaluator.run_of_endless (Evaluator.forall_allows_iff.2 hlargest) fun n =>
    machine_run_eq_none_iff.2 fun outcome m hm => absurd hm (h outcome m)

/-- The courses in terms of the rules. -/
inductive Course (c : Call) (ev : Evaluator) :
    Option (Except EvalError Value × Evaluator) → Prop where
  | ends {outcome : Except Fault Value} {n : Nat} (hallowed : ev.Allows n)
      (h : c.Computes outcome n) : Course c ev (some (outcome.mapError .fault, ev.spend n))
  | cut {n : Nat} (hallowed : ev.Allows n) (hrefused : ¬ ev.Allows (n + 1))
      (h : ∀ outcome m, c.Computes outcome m → n < m) :
      Course c ev (some (.error .gasExhausted, ev.spend (n + 1)))
  | endless (hlargest : ev.limits.gasLimit.toNat + 1 = UInt64.size)
      (h : ∀ outcome n, ¬ c.Computes outcome n) : Course c ev none

/-- A call takes one of the courses. -/
theorem course (c : Call) (ev : Evaluator) : c.Course ev (c.run ev) := by
  have hrun := ev.course c.start
  rw [← c.run_eq ev] at hrun
  generalize c.run ev = answer at hrun ⊢
  cases hrun with
  | ends hallowed hrun => exact .ends hallowed (machine_run_exact_iff.1 hrun)
  | cut hallowed hrefused hrun =>
    exact .cut hallowed hrefused (machine_run_eq_none_iff.1 hrun)
  | endless hallowed hrun =>
    refine .endless (Evaluator.forall_allows_iff.1 hallowed) fun outcome n h => ?_
    exact Nat.lt_irrefl n (machine_run_eq_none_iff.1 (hrun n) outcome n h)

/-- The courses of a call that has an answer. -/
theorem ends_or_cut_of_run {answer : Except EvalError Value} {ev' : Evaluator}
    (h : c.run ev = some (answer, ev')) :
    (∃ outcome n, ev.Allows n ∧ c.Computes outcome n ∧
      answer = outcome.mapError .fault ∧ ev' = ev.spend n) ∨
    (∃ n, ev.Allows n ∧ ¬ ev.Allows (n + 1) ∧ (∀ outcome m, c.Computes outcome m → n < m) ∧
      answer = .error .gasExhausted ∧ ev' = ev.spend (n + 1)) := by
  have hcourse := h ▸ c.course ev
  generalize hanswer : some (answer, ev') = result at hcourse
  cases hcourse with
  | ends hallowed hc =>
    obtain ⟨rfl, rfl⟩ := Prod.mk.inj (Option.some.inj hanswer)
    exact .inl ⟨_, _, hallowed, hc, rfl, rfl⟩
  | cut hallowed hrefused hbeyond =>
    obtain ⟨rfl, rfl⟩ := Prod.mk.inj (Option.some.inj hanswer)
    exact .inr ⟨_, hallowed, hrefused, hbeyond, rfl, rfl⟩
  | endless hlargest hendless => cases hanswer

/-- A call answers with an outcome exactly if the rules give it within the visits that are
allowed. -/
theorem run_eq_outcome_iff {ev' : Evaluator} :
    c.run ev = some (outcome.mapError .fault, ev') ↔
      ∃ n, c.Computes outcome n ∧ ev.Allows n ∧ ev' = ev.spend n := by
  constructor
  · intro hrun
    obtain ⟨o, n, hallowed, h, ho, hev⟩ | ⟨n, -, -, -, ho, -⟩ := ends_or_cut_of_run hrun
    · exact ⟨n, mapError_fault_injective ho ▸ h, hallowed, hev⟩
    · exact absurd ho (mapError_fault_ne_gasExhausted outcome)
  · intro h
    rcases h with ⟨n, hc, hallowed, rfl⟩
    exact run_of_allowed hc hallowed

/-- A call runs out of gas exactly if all that the rules give costs more than the visits before
the first one that is refused. -/
theorem run_eq_gasExhausted_iff {ev' : Evaluator} :
    c.run ev = some (.error .gasExhausted, ev') ↔
      ∃ n, ev.Allows n ∧ ¬ ev.Allows (n + 1) ∧
        (∀ outcome m, c.Computes outcome m → n < m) ∧ ev' = ev.spend (n + 1) := by
  constructor
  · intro hrun
    obtain ⟨o, n, -, -, ho, -⟩ | ⟨n, hallowed, hrefused, h, -, hev⟩ := ends_or_cut_of_run hrun
    · exact absurd ho.symm (mapError_fault_ne_gasExhausted o)
    · exact ⟨n, hallowed, hrefused, h, hev⟩
  · intro h
    rcases h with ⟨n, hallowed, hrefused, hbeyond, rfl⟩
    exact run_of_refused hallowed hrefused hbeyond

/-- A call goes on for ever exactly if the limit is the largest word and the rules have no
outcome. -/
theorem run_eq_none_iff :
    c.run ev = none ↔
      ev.limits.gasLimit.toNat + 1 = UInt64.size ∧ ∀ outcome n, ¬ c.Computes outcome n := by
  constructor
  · intro hrun
    have hcourse := hrun ▸ c.course ev
    generalize hanswer : none = answer at hcourse
    cases hcourse with
    | ends hallowed h => cases hanswer
    | cut hallowed hrefused h => cases hanswer
    | endless hlargest h => exact ⟨hlargest, h⟩
  · intro h
    rcases h with ⟨hlargest, hendless⟩
    exact run_of_endless hlargest hendless

/-- What a call answers, unless it runs out of gas, the rules give. -/
theorem computes_of_run {ev' : Evaluator}
    (h : c.run ev = some (outcome.mapError .fault, ev')) : ∃ n, c.Computes outcome n := by
  obtain ⟨n, hn, -⟩ := run_eq_outcome_iff.1 h
  exact ⟨n, hn⟩

/-- A call does not fail with a fault that the rules never come to. -/
theorem run_ne_fault {fault : Fault} (h : ∀ n, ¬ c.Computes (.error fault) n)
    (ev' : Evaluator) : c.run ev ≠ some (.error (.fault fault), ev') := by
  intro hrun
  obtain ⟨n, hn⟩ := @computes_of_run c ev (.error fault) ev' hrun
  exact h n hn

end Courses

/-- What it means for a call to come to an outcome at a cost.  Under every limit that allows the
cost, of whatever size, it ends with the outcome and has used the cost.  An evaluator that allows
the cost answers with the outcome and counts the cost, and one that refuses a visit before is
exhausted by that visit. -/
structure ComesTo (c : Call) (outcome : Except Fault Value) (cost : Nat) : Prop where
  ends : ∀ limit, cost ≤ limit → c.Ends limit outcome cost
  run_of_allowed : ∀ ev : Evaluator, ev.Allows cost →
    c.run ev = some (outcome.mapError .fault, ev.spend cost)
  run_of_refused : ∀ (ev : Evaluator) (n : Nat), ev.Allows n → ¬ ev.Allows (n + 1) → n < cost →
    c.run ev = some (.error .gasExhausted, ev.spend (n + 1))

/-- A call comes to what the rules give, at the cost that they count. -/
theorem comesTo_of_computes {c : Call} {outcome : Except Fault Value} {cost : Nat}
    (h : c.Computes outcome cost) : c.ComesTo outcome cost where
  ends _ hlimit := ends_iff.2 ⟨hlimit, h⟩
  run_of_allowed _ hallowed := Call.run_of_allowed h hallowed
  run_of_refused _ _ hallowed hrefused hlt :=
    Call.run_of_refused hallowed hrefused fun outcome' m h' => by
      obtain ⟨-, rfl⟩ := computes_unique h h'
      exact hlt

/-! ## Unused evaluators -/

section Unused

variable {c : Call} {limits : Limits}

/-- Under a limit that is not the largest word, an unused evaluator ends a call with an outcome and
a count exactly when the rules give that outcome in as many visits and the limit allows them. -/
theorem run_new_eq_outcome_iff (hlimit : limits.gasLimit.toNat + 1 < UInt64.size)
    {outcome : Except Fault Value} {gas : UInt64} :
    c.run (.new limits) = some (outcome.mapError .fault, ⟨limits, gas⟩) ↔
      c.Computes outcome gas.toNat ∧ gas ≤ limits.gasLimit := by
  rw [run_eq_outcome_iff, UInt64.le_iff_toNat_le]
  constructor
  · intro h
    rcases h with ⟨n, hc, hallowed, hev⟩
    rw [Evaluator.allows_new_iff] at hallowed
    obtain rfl : gas = UInt64.ofNat n := by
      rw [Evaluator.spend_new] at hev
      exact congrArg Evaluator.gasUsed hev
    have hcount : (UInt64.ofNat n).toNat = n := UInt64.toNat_ofNat_of_lt (by omega)
    rw [hcount]
    exact ⟨hc, by omega⟩
  · intro h
    rcases h with ⟨hc, hle⟩
    refine ⟨gas.toNat, hc, Evaluator.allows_new_iff.2 (.inl hle), ?_⟩
    rw [Evaluator.spend_new, UInt64.ofNat_toNat]

/-- Under a limit that is not the largest word, an unused evaluator runs out of gas on a call
exactly when all that the rules give costs more than the limit. -/
theorem run_new_eq_gasExhausted_iff (hlimit : limits.gasLimit.toNat + 1 < UInt64.size) :
    c.run (.new limits) = some (.error .gasExhausted, ⟨limits, limits.gasLimit + 1⟩) ↔
      ∀ outcome n, c.Computes outcome n → limits.gasLimit.toNat < n := by
  rw [run_eq_gasExhausted_iff]
  constructor
  · intro h
    rcases h with ⟨n, hallowed, hrefused, hbeyond, -⟩
    rw [Evaluator.allows_new_iff] at hallowed hrefused
    obtain rfl : n = limits.gasLimit.toNat := by omega
    exact hbeyond
  · intro h
    refine ⟨limits.gasLimit.toNat, ?_, ?_, h, ?_⟩
    · exact Evaluator.allows_new_iff.2 (.inl (Nat.le_refl _))
    · rw [Evaluator.allows_new_iff]
      omega
    · rw [Evaluator.spend_new]
      simp

end Unused

/-! ## Exhausted evaluators -/

/-- Whether a call has to visit a node: forcing a finished value does not. -/
def Visits : Call → Prop
  | evalExpr _ _ _ | evaluate _ => True
  | force v _ _ => v.isDeferred = true

instance : DecidablePred Visits
  | evalExpr _ _ _ | evaluate _ => isTrue trivial
  | force v _ _ => inferInstanceAs (Decidable (v.isDeferred = true))

/-- A call that has to visit a node costs at least that visit. -/
theorem one_le_of_computes {c : Call} {outcome : Except Fault Value} {n : Nat}
    (hc : c.Visits) (h : c.Computes outcome n) : 1 ≤ n := by
  have hfinish : ∀ {env : Env} {stack : List Expr} {e : Expr},
      WireLambda.Computes env stack (.finish e) outcome n → 1 ≤ n := by
    intro env stack e h
    cases h with
    | finish he hv => exact Nat.le_add_right_of_le (Machine.one_le_of_computes_visit he)
    | finishFault he => exact Machine.one_le_of_computes_visit he
  cases c with
  | evalExpr e env stack => exact Machine.one_le_of_computes_visit h
  | evaluate e => exact hfinish h
  | force v env stack =>
    cases v with
    | scalar s => exact absurd hc (by simp [Visits, Value.isDeferred])
    | deferred e =>
      cases h with
      | forceDeferred h => exact hfinish h

/-- What a call that has to visit a node makes an unused evaluator count, if the counter has room
for it: at least one visit, and none beyond the limit but the one that is refused. -/
theorem gasUsed_run_new {c : Call} (hc : c.Visits) {limits : Limits}
    (hroom : limits.gasLimit.toNat + 1 < UInt64.size ∨
      ∃ outcome n, n < UInt64.size ∧ c.Computes outcome n)
    {answer : Except EvalError Value} {ev : Evaluator}
    (hrun : c.run (.new limits) = some (answer, ev)) :
    1 ≤ ev.gasUsed.toNat ∧ ev.gasUsed.toNat ≤ limits.gasLimit.toNat + 1 ∧
      (answer ≠ .error .gasExhausted → ev.gasUsed.toNat ≤ limits.gasLimit.toNat) := by
  obtain ⟨outcome, n, hallowed, h, -, rfl⟩ | ⟨n, hallowed, hrefused, -, rfl, rfl⟩ :=
    ends_or_cut_of_run hrun
  · have hone := one_le_of_computes hc h
    rw [Evaluator.allows_new_iff] at hallowed
    have hword : n < UInt64.size := by
      rcases hroom with hlimit | ⟨outcome', m, hm, h'⟩
      · omega
      · obtain ⟨-, rfl⟩ := computes_unique h h'
        exact hm
    rw [Evaluator.toNat_gasUsed_new limits hword]
    omega
  · have hlimit := limits.gasLimit.toNat_lt_size
    rw [Evaluator.allows_new_iff] at hallowed hrefused
    rw [Evaluator.toNat_gasUsed_new limits (by omega)]
    exact ⟨by omega, by omega, fun hne => absurd rfl hne⟩

/-- At its limit or above it, an evaluator refuses the first visit of every call, and counts it. -/
theorem run_of_full {c : Call} {ev : Evaluator} (hc : c.Visits)
    (hle : ev.limits.gasLimit ≤ ev.gasUsed) (hroom : ev.gasUsed.toNat + 1 < UInt64.size) :
    c.run ev = some (.error .gasExhausted, ev.spend 1) :=
  run_of_refused ev.allows_zero (Evaluator.not_allows_one hle hroom) fun _ _ h =>
    one_le_of_computes hc h

/-! ## Sharing an evaluator -/

/-- **A call sees nothing of an evaluator but the visits that it allows.**  Let a call take the
course of another one after `k` visits of its own, as far as that one can be seen on its evaluator.
Then the two are answered the same, with `k` visits more. -/
theorem run_congr {c c' : Call} {ev ev' : Evaluator} {k : Nat}
    (hallows : ∀ n, ev.Allows (n + k) ↔ ev'.Allows n)
    (hforth : ∀ o n, ev'.Allows n → c'.Computes o n → c.Computes o (n + k))
    (hback : ∀ o m, c.Computes o m → ∃ o' n, n + k ≤ m ∧ c'.Computes o' n) :
    (c.run ev = none ∧ c'.run ev' = none) ∨
      ∃ answer n, c.run ev = some (answer, ev.spend (n + k)) ∧
        c'.run ev' = some (answer, ev'.spend n) ∧ ev'.Allows (n - 1) := by
  have hcourse := c'.course ev'
  generalize c'.run ev' = answer at hcourse ⊢
  cases hcourse with
  | @ends outcome n hallowed h =>
    refine .inr ⟨_, n, ?_, rfl, hallowed.mono (Nat.sub_le n 1)⟩
    exact run_of_allowed (hforth outcome n hallowed h) ((hallows n).2 hallowed)
  | @cut n hallowed hrefused h =>
    refine .inr ⟨_, n + 1, ?_, rfl, hallowed⟩
    have hlater : n + 1 + k = n + k + 1 := Nat.add_right_comm n 1 k
    rw [hlater]
    refine run_of_refused ((hallows n).2 hallowed) (fun h' => ?_) fun o m hm => ?_
    · exact hrefused ((hallows (n + 1)).1 (hlater ▸ h'))
    · obtain ⟨o', n', hle, h'⟩ := hback o m hm
      have hlt := h o' n' h'
      omega
  | endless hlargest h =>
    refine .inl ⟨run_of_endless ?_ fun o m hm => ?_, rfl⟩
    · have hall := Evaluator.forall_allows_iff.2 hlargest
      exact Evaluator.forall_allows_iff.1 fun n =>
        ((hallows n).2 (hall n)).mono (Nat.le_add_right n k)
    · obtain ⟨o', n, -, h'⟩ := hback o m hm
      exact h o' n h'

/-- A call that comes to what another one comes to `k` visits later is answered like that one on
an evaluator that has made `k` visits. -/
theorem run_eq_run_spend {c c' : Call} {ev : Evaluator} {k : Nat} (hallowed : ev.Allows k)
    (hforth : ∀ o n, (ev.spend k).Allows n → c'.Computes o n → c.Computes o (n + k))
    (hback : ∀ o m, c.Computes o m → ∃ o' n, n + k ≤ m ∧ c'.Computes o' n) :
    c.run ev = c'.run (ev.spend k) := by
  have hallows : ∀ n, ev.Allows (n + k) ↔ (ev.spend k).Allows n := by
    intro n
    rw [Nat.add_comm, Evaluator.allows_add_iff]
    exact and_iff_right hallowed
  rcases run_congr hallows hforth hback with ⟨h, h'⟩ | ⟨answer, n, h, h', -⟩
  · rw [h, h']
  · rw [h, h', ← Evaluator.spend_add, Nat.add_comm]

/-- Calls of which the rules say the same are answered the same. -/
theorem run_eq_of_computes_iff {c c' : Call}
    (h : ∀ outcome n, c.Computes outcome n ↔ c'.Computes outcome n) (ev : Evaluator) :
    c.run ev = c'.run ev := by
  have hsame := @run_eq_run_spend c c' ev 0 ev.allows_zero (fun o n _ hn => (h o n).2 hn)
    fun o m hm => ⟨o, m, Nat.le_refl m, (h o m).1 hm⟩
  rwa [Evaluator.spend_zero] at hsame

end Call

namespace Evaluator

/-- Programs evaluated one after another: what each gives, and the gas it uses. -/
def evaluateEach (ev : Evaluator) : List Expr → Option (List (Except EvalError Value × UInt64))
  | [] => some []
  | e :: es =>
      (ev.evaluate e).bind fun r =>
        (r.2.evaluateEach es).map ((r.1, r.2.gasUsed - ev.gasUsed) :: ·)

/-- The same programs, each on an unused evaluator of its own, whose limit is what the
programs before it have left of a budget. -/
def evaluateApart (budget : Nat) : List Expr → Option (List (Except EvalError Value × UInt64))
  | [] => some []
  | e :: es =>
      ((new ⟨UInt64.ofNat budget⟩).evaluate e).bind fun r =>
        (evaluateApart (budget - r.2.gasUsed.toNat) es).map ((r.1, r.2.gasUsed) :: ·)

/-- Evaluating a program on an evaluator is evaluating it on an unused one whose limit is
what is left: the outcome is the same, and so is the gas used. -/
theorem evaluate_eq_apart (ev : Evaluator) (e : Expr)
    (hroom : max ev.gasUsed.toNat ev.limits.gasLimit.toNat + 1 < UInt64.size) :
    ∃ outcome visits, visits ≤ ev.remaining + 1 ∧
      ev.evaluate e = some (outcome, ev.spend visits) ∧
      (new ⟨UInt64.ofNat ev.remaining⟩).evaluate e =
        some (outcome, (new ⟨UInt64.ofNat ev.remaining⟩).spend visits) := by
  have hleft : ev.remaining + 1 < UInt64.size := by
    unfold remaining
    omega
  have hlimit : (UInt64.ofNat ev.remaining).toNat = ev.remaining :=
    UInt64.toNat_ofNat_of_lt (by omega)
  have hapart : ∀ n, (new ⟨UInt64.ofNat ev.remaining⟩).Allows n ↔ n ≤ ev.remaining := by
    intro n
    have hnew := @allows_new_iff ⟨UInt64.ofNat ev.remaining⟩ n
    rw [hlimit] at hnew
    rw [hnew]
    omega
  have hsame : ∀ n, ev.Allows (n + 0) ↔ (new ⟨UInt64.ofNat ev.remaining⟩).Allows n := by
    intro n
    rw [hapart]
    exact allows_iff_le_remaining hroom
  rcases @Call.run_congr (.evaluate e) (.evaluate e) _ _ _ hsame (fun o n _ h => h)
    (fun o m h => ⟨o, m, Nat.le_refl m, h⟩) with ⟨hnone, -⟩ | ⟨outcome, n, hrun, hrun', hallowed⟩
  · have hsome : (ev.evaluate e).isSome = true := isSome_run (by omega) _
    have hnone : ev.evaluate e = none := hnone
    rw [hnone] at hsome
    cases hsome
  · rw [hapart] at hallowed
    exact ⟨outcome, n, by omega, hrun, hrun'⟩

/-- The evaluator after some programs. -/
def afterEach (ev : Evaluator) : List Expr → Option Evaluator
  | [] => some ev
  | e :: es => (ev.evaluate e).bind fun r => r.2.afterEach es

/-- No program is started where the count has no room for another visit. -/
def HasRoom (ev : Evaluator) (es : List Expr) : Prop :=
  ∀ before e after, es = before ++ e :: after →
    ∀ ev' ∈ ev.afterEach before, ev'.gasUsed.toNat < UInt64.size - 1

theorem HasRoom.head {ev : Evaluator} {e : Expr} {es : List Expr}
    (h : ev.HasRoom (e :: es)) : ev.gasUsed.toNat < UInt64.size - 1 :=
  h [] e es rfl ev rfl

theorem HasRoom.tail {ev : Evaluator} {e : Expr} {es : List Expr} (h : ev.HasRoom (e :: es))
    {outcome : Except EvalError Value} {ev' : Evaluator}
    (hrun : ev.evaluate e = some (outcome, ev')) : ev'.HasRoom es := by
  intro before e' after heq last hlast
  refine h (e :: before) e' after (by rw [heq, List.cons_append]) last ?_
  rw [afterEach, hrun]
  exact hlast

/-- **One evaluator for many programs.**  As long as the count has room, sharing an
evaluator is using up a budget. -/
theorem evaluateEach_eq_evaluateApart {ev : Evaluator} {es : List Expr}
    (hlimit : ev.limits.gasLimit.toNat < UInt64.size - 1) (hroom : ev.HasRoom es) :
    ∃ answers, ev.evaluateEach es = some answers ∧
      evaluateApart ev.remaining es = some answers := by
  induction es generalizing ev with
  | nil => exact ⟨[], rfl, rfl⟩
  | cons e es ih =>
    have hhead := hroom.head
    obtain ⟨outcome, visits, hle, hshared, hapart⟩ := ev.evaluate_eq_apart e (by omega)
    have htail := hroom.tail hshared
    unfold remaining at hle
    have hused : (ev.spend visits).gasUsed.toNat = ev.gasUsed.toNat + visits :=
      toNat_gasUsed_spend (by omega)
    have hrest : (ev.spend visits).remaining = ev.remaining - visits := by
      show ev.limits.gasLimit.toNat - (ev.spend visits).gasUsed.toNat = _
      rw [hused, remaining, Nat.sub_sub]
    have hgas : (ev.spend visits).gasUsed - ev.gasUsed = UInt64.ofNat visits := by
      show ev.gasUsed + UInt64.ofNat visits - ev.gasUsed = _
      rw [UInt64.add_comm, UInt64.add_sub_cancel]
    have hgas' : ((new ⟨UInt64.ofNat ev.remaining⟩).spend visits).gasUsed =
        UInt64.ofNat visits := UInt64.zero_add _
    have hnat : (UInt64.ofNat visits).toNat = visits :=
      UInt64.toNat_ofNat_of_lt (by omega)
    obtain ⟨answers, hes, hes'⟩ := @ih (ev.spend visits) hlimit htail
    rw [hrest] at hes'
    refine ⟨(outcome, UInt64.ofNat visits) :: answers, ?_, ?_⟩
    · rw [evaluateEach, hshared, Option.bind_some, hes, hgas]
      rfl
    · rw [evaluateApart, hapart, Option.bind_some, hgas', hnat, hes']
      rfl

/-- What a call on `ev` answered: an outcome, the limits as they were, and the count as a
number. -/
def Answers (ev : Evaluator) (answer : Option (Except EvalError Value × Evaluator))
    (outcome : Except EvalError Value) (gas : Nat) : Prop :=
  ∃ ev', answer = some (outcome, ev') ∧ ev'.limits = ev.limits ∧ ev'.gasUsed.toNat = gas

theorem answers_spend {ev : Evaluator} {outcome : Except EvalError Value} {visits : Nat}
    (hroom : ev.gasUsed.toNat + visits < UInt64.size) :
    ev.Answers (some (outcome, ev.spend visits)) outcome (ev.gasUsed.toNat + visits) :=
  ⟨_, rfl, rfl, toNat_gasUsed_spend hroom⟩

end Evaluator

namespace Call

/-- An outcome below the limit is reached, and the count goes up by its cost. -/
theorem answers_of_le {c : Call} {ev : Evaluator} {outcome : Except Fault Value} {n : Nat}
    (hopen : ev.gasUsed ≤ ev.limits.gasLimit) (h : c.Computes outcome n)
    (hn : ev.gasUsed.toNat + n ≤ ev.limits.gasLimit.toNat) :
    ev.Answers (c.run ev) (outcome.mapError .fault) (ev.gasUsed.toNat + n) := by
  have hlimit := ev.limits.gasLimit.toNat_lt_size
  rw [run_of_allowed h ((Evaluator.allows_iff hopen).2 (.inl hn))]
  exact Evaluator.answers_spend (by omega)

/-- A call with no outcome below the limit stops one above it. -/
theorem answers_of_lt {c : Call} {ev : Evaluator}
    (hroom : ev.limits.gasLimit.toNat < UInt64.size - 1)
    (hopen : ev.gasUsed ≤ ev.limits.gasLimit)
    (h : ∀ outcome n, c.Computes outcome n →
      ev.limits.gasLimit.toNat < ev.gasUsed.toNat + n) :
    ev.Answers (c.run ev) (.error .gasExhausted) (ev.limits.gasLimit.toNat + 1) := by
  have hle := UInt64.le_iff_toNat_le.1 hopen
  have hallows := fun n => @Evaluator.allows_iff ev hopen n
  have htop : ev.limits.gasLimit.toNat + 1 = ev.gasUsed.toNat + (ev.remaining + 1) := by
    unfold Evaluator.remaining
    omega
  have hrun : c.run ev = some (.error .gasExhausted, ev.spend (ev.remaining + 1)) := by
    refine run_of_refused ((hallows _).2 (by omega)) (fun hnext => ?_) fun outcome n hc => ?_
    · have hnext := (hallows _).1 hnext
      omega
    · have hcost := h outcome n hc
      omega
  rw [hrun, htop]
  exact Evaluator.answers_spend (by omega)

end Call

/-! ## The main results -/

/-- **The metered evaluator is the rules, cut off at the limit.**  Under every limit but the
largest word, an unused evaluator ends the evaluation of a node with an outcome and a count exactly
when the rules give that outcome in as many visits and the limit allows them, and it runs out of
gas, one visit above the limit, exactly when all that the rules give costs more than the limit.
Under the largest word no visit is refused.  The evaluation ends with an outcome exactly when the
rules give it, in a number of visits that the count shows as a word, and goes on for ever exactly
when the rules give nothing. -/
theorem evalExpr_new_eq_iff_computes (e : Expr) (env : Env) (stack : List Expr)
    (limits : Limits) :
    (limits.gasLimit.toNat + 1 < UInt64.size →
      (∀ outcome gas,
        (Evaluator.new limits).evalExpr e env stack =
            some (outcome.mapError .fault, ⟨limits, gas⟩) ↔
          Computes env stack (.visit e) outcome gas.toNat ∧ gas ≤ limits.gasLimit) ∧
      ((Evaluator.new limits).evalExpr e env stack =
          some (.error .gasExhausted, ⟨limits, limits.gasLimit + 1⟩) ↔
        ∀ outcome n, Computes env stack (.visit e) outcome n →
          limits.gasLimit.toNat < n)) ∧
    (limits.gasLimit.toNat + 1 = UInt64.size →
      (∀ outcome gas,
        (Evaluator.new limits).evalExpr e env stack =
            some (outcome.mapError .fault, ⟨limits, gas⟩) ↔
          ∃ n, Computes env stack (.visit e) outcome n ∧ UInt64.ofNat n = gas) ∧
      ((Evaluator.new limits).evalExpr e env stack = none ↔
        ∀ outcome n, ¬ Computes env stack (.visit e) outcome n)) := by
  let c : Call := .evalExpr e env stack
  constructor
  · intro hlimit
    exact ⟨fun _ _ => Call.run_new_eq_outcome_iff (c := c) hlimit,
      Call.run_new_eq_gasExhausted_iff (c := c) hlimit⟩
  · intro hlargest
    have hall : ∀ n, (Evaluator.new limits).Allows n :=
      Evaluator.forall_allows_iff.2 hlargest
    refine ⟨fun outcome gas => ?_, ?_⟩
    · refine (Call.run_eq_outcome_iff (c := c)).trans (exists_congr fun n => ?_)
      refine and_congr_right fun _ => ?_
      rw [Evaluator.spend_new, and_iff_right (hall n), Evaluator.mk.injEq,
        and_iff_right rfl, eq_comm]
    · exact (Call.run_eq_none_iff (c := c)).trans (and_iff_right hlargest)

/-- An environment where a variable is bound to itself. -/
def selfBound : Env := Env.empty.bind ⟨1⟩ (.deferred (.var ⟨1⟩))

/-- There, a finished value of that variable is looked for again and again. -/
theorem Machine.run_selfBound (budget : Nat) (stack : List Expr) (use : Use)
    (frames : List Frame) :
    run budget (.visit (.var ⟨1⟩) selfBound stack (⟨selfBound, stack, use⟩ :: frames)) =
      none := by
  induction budget with
  | zero => rfl
  | succ budget ih => exact ih

/-- A program whose evaluation does not end: an argument that is nothing but the parameter. -/
def endless : Expr := .apply (.lambda ⟨1⟩ (.unary .negate (.var ⟨1⟩))) (.var ⟨1⟩)

/-- The machine, visiting that program, comes to look up the variable. -/
theorem Machine.run_endless (budget : Nat) (frames : List Frame) :
    run budget (.visit endless .empty [] frames) = none := by
  match budget with
  | 0 | 1 | 2 => rfl
  | budget + 3 => exact run_selfBound budget [] (.unary .negate) (⟨.empty, [], .result⟩ :: frames)

theorem Call.not_computes_endless (outcome : Except Fault Value) (n : Nat) :
    ¬ (Call.evalExpr endless .empty []).Computes outcome n ∧
      ¬ (Call.evaluate endless).Computes outcome n := by
  refine ⟨fun h => ?_, fun h => ?_⟩
  · exact Nat.lt_irrefl n (machine_run_eq_none_iff.1 (Machine.run_endless n _) outcome n h)
  · exact Nat.lt_irrefl n (machine_run_eq_none_iff.1 (Machine.run_endless n _) outcome n h)

/-- A program whose evaluation does not end runs out of gas, or goes on for ever where no visit is
refused. -/
theorem evalExpr_new_eq_iff_computes_endless :
    (9 : UInt64).toNat + 1 < UInt64.size ∧
      (Evaluator.new ⟨9⟩).evalExpr endless .empty [] =
        some (.error .gasExhausted, ⟨⟨9⟩, 10⟩) ∧
      (18446744073709551615 : UInt64).toNat + 1 = UInt64.size ∧
      (Evaluator.new ⟨18446744073709551615⟩).evalExpr endless .empty [] = none := by
  have hlimit : (9 : UInt64).toNat + 1 < UInt64.size := by decide
  have hlargest : (18446744073709551615 : UInt64).toNat + 1 = UInt64.size := by decide
  obtain ⟨-, hcut⟩ := (evalExpr_new_eq_iff_computes endless .empty [] ⟨9⟩).1 hlimit
  obtain ⟨-, hnone⟩ :=
    (evalExpr_new_eq_iff_computes endless .empty [] ⟨18446744073709551615⟩).2 hlargest
  refine ⟨hlimit, hcut.2 fun outcome n h => ?_, hlargest, hnone.2 fun outcome n => ?_⟩
  · exact absurd h (Call.not_computes_endless outcome n).1
  · exact (Call.not_computes_endless outcome n).1

open Evaluator in
/-- **Gas decides where a run is cut, and nothing else.**  A node in its place either has one
outcome at one cost, or has none.  An evaluator below its limit gives the outcome if the
limit has room for the cost, and in all other cases stops one above the limit.  An evaluator
above its limit refuses every call that has to visit a node, and counts one visit each time.
Programs evaluated one after another therefore come out as on unused evaluators that are
given what is left.  (An evaluator is a value, so a copy of it that keeps its count is
another name for it.) -/
theorem gas_only_cuts (e : Expr) (env : Env) (stack : List Expr) :
    ((∃ outcome n, 1 ≤ n ∧ Computes env stack (.visit e) outcome n ∧
        ∀ ev : Evaluator, ev.limits.gasLimit.toNat < UInt64.size - 1 →
          ev.gasUsed ≤ ev.limits.gasLimit →
          if ev.gasUsed.toNat + n ≤ ev.limits.gasLimit.toNat then
            ev.Answers (ev.evalExpr e env stack) (outcome.mapError .fault)
              (ev.gasUsed.toNat + n)
          else
            ev.Answers (ev.evalExpr e env stack) (.error .gasExhausted)
              (ev.limits.gasLimit.toNat + 1)) ∨
      ((∀ outcome n, ¬ Computes env stack (.visit e) outcome n) ∧
        ∀ ev : Evaluator, ev.limits.gasLimit.toNat < UInt64.size - 1 →
          ev.gasUsed ≤ ev.limits.gasLimit →
          ev.Answers (ev.evalExpr e env stack) (.error .gasExhausted)
            (ev.limits.gasLimit.toNat + 1))) ∧
    (∀ (c : Call) (ev : Evaluator), c.Visits → ev.limits.gasLimit < ev.gasUsed →
      ev.gasUsed.toNat + 1 < UInt64.size →
      ev.Answers (c.run ev) (.error .gasExhausted) (ev.gasUsed.toNat + 1)) ∧
    (∀ (ev : Evaluator) (es : List Expr), ev.limits.gasLimit.toNat < UInt64.size - 1 →
      ev.HasRoom es → ∃ answers, ev.evaluateEach es = some answers ∧
        evaluateApart ev.remaining es = some answers) := by
  refine ⟨?_, ?_, fun ev es hlimit hroom => evaluateEach_eq_evaluateApart hlimit hroom⟩
  · let c : Call := .evalExpr e env stack
    by_cases h : ∃ outcome n, Computes env stack (.visit e) outcome n
    · obtain ⟨outcome, n, hc⟩ := h
      refine .inl ⟨outcome, n, Machine.one_le_of_computes_visit hc, hc, ?_⟩
      intro ev hroom hopen
      split
      · next hn => exact Call.answers_of_le (c := c) hopen hc hn
      · next hn =>
        refine Call.answers_of_lt (c := c) hroom hopen fun o m hm => ?_
        obtain ⟨-, rfl⟩ := Call.computes_unique (c := c) hc hm
        omega
    · have hnone : ∀ outcome n, ¬ Computes env stack (.visit e) outcome n :=
        fun outcome n hc => h ⟨outcome, n, hc⟩
      refine .inr ⟨hnone, fun ev hroom hopen => ?_⟩
      exact Call.answers_of_lt (c := c) hroom hopen fun o m hm => absurd hm (hnone o m)
  · intro c ev hc hlt hroom
    rw [Call.run_of_full hc (UInt64.le_of_lt hlt) hroom]
    exact answers_spend hroom

end WireLambda
