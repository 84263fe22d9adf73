import WireLambda.Eval.Machine

/-!
# Evaluators

An evaluator runs expressions and counts the nodes that were visited, over all the
expressions it is given.  It has a limit on that count, and an evaluation that would pass
the limit ends with `EvalError.gasExhausted`.

The count and the limit are 64-bit words.  Before each visit the evaluator adds one to the count,
and refuses the visit if the count is then above the limit (`Evaluator.tick`).  The visit that is
refused has been counted too, so an exhausted evaluator stands one above its limit, and every
further attempt adds one more.

The largest word is a limit that no count is above.  Under it no visit is refused, and an
evaluation that does not end by itself does not end at all.  An evaluation therefore has an
answer or none (`Evaluator.run`), and `Evaluator.Course` lists what can happen: it comes to its
outcome within the visits that are allowed, or is cut off at the first one that is not, or goes
on for ever.  `Evaluator.run_eq_iff` says that this is all there is to know of a run, in terms of
the machine on a budget.
-/

namespace WireLambda

/-- What an evaluation may use. -/
structure Limits where
  gasLimit : UInt64
  deriving DecidableEq

/-- The gas limit where none is given. -/
def Limits.defaultGasLimit : UInt64 := 100000000

/-- The limits where none are given. -/
def Limits.default : Limits := ⟨defaultGasLimit⟩

/-- A count of visited nodes and its limit. -/
structure Evaluator where
  limits : Limits
  gasUsed : UInt64
  deriving DecidableEq

namespace Evaluator

/-- An evaluator that has visited nothing. -/
def new (limits : Limits) : Evaluator := ⟨limits, 0⟩

/-- The evaluator after `visits` more nodes. -/
def spend (ev : Evaluator) (visits : Nat) : Evaluator :=
  { ev with gasUsed := ev.gasUsed + UInt64.ofNat visits }

/-- Counts one visit, and refuses it if the count is above the limit. -/
def tick (ev : Evaluator) : Except EvalError Unit × Evaluator :=
  let counted := ev.spend 1
  (if counted.limits.gasLimit < counted.gasUsed then .error .gasExhausted else .ok (), counted)

/-- Runs the machine, with a tick before each visit.  There is no answer if that goes on for
ever. -/
def run (ev : Evaluator) (n : Next) : Option (Except EvalError Value × Evaluator) :=
  match n with
  | .halt outcome => some (outcome.mapError .fault, ev)
  | .visit e env stack frames =>
      -- what is left, for the evaluator that has counted the visit
      let rest := run (n := Machine.visit e env stack frames)
      match ev.tick with
      | (.error err, counted) => some (.error err, counted)
      | (.ok (), counted) => rest counted
partial_fixpoint

/-- Evaluates a node; the value may be deferred. -/
def evalExpr (ev : Evaluator) (e : Expr) (env : Env) (stack : List Expr) :
    Option (Except EvalError Value × Evaluator) :=
  ev.run (.visit e env stack [])

/-- Evaluates a deferred value, as often as it takes to get a finished one. -/
def force (ev : Evaluator) (v : Value) (env : Env) (stack : List Expr) :
    Option (Except EvalError Value × Evaluator) :=
  ev.run (Machine.give v [⟨env, stack, .result⟩])

/-- Evaluates a program, with no variables bound and no arguments waiting, to a finished
value. -/
def evaluate (ev : Evaluator) (e : Expr) : Option (Except EvalError Value × Evaluator) :=
  ev.run (.visit e .empty [] [⟨.empty, [], .result⟩])

/-! ## The visits that are allowed -/

theorem spend_zero (ev : Evaluator) : ev.spend 0 = ev := by
  simp [spend]

theorem spend_add (ev : Evaluator) (n m : Nat) : ev.spend (n + m) = (ev.spend n).spend m := by
  simp only [spend, UInt64.ofNat_add, UInt64.add_assoc]

/-- The count after some visits, if it has room for them. -/
theorem toNat_gasUsed_spend {ev : Evaluator} {visits : Nat}
    (hroom : ev.gasUsed.toNat + visits < UInt64.size) :
    (ev.spend visits).gasUsed.toNat = ev.gasUsed.toNat + visits := by
  have hvisits : (UInt64.ofNat visits).toNat = visits :=
    UInt64.toNat_ofNat_of_lt (by omega)
  show (ev.gasUsed + UInt64.ofNat visits).toNat = ev.gasUsed.toNat + visits
  rw [UInt64.toNat_add, hvisits]
  exact Nat.mod_eq_of_lt hroom

/-- Whether the next `visits` visits are allowed: none of them takes the count above the limit. -/
def Allows (ev : Evaluator) (visits : Nat) : Prop :=
  ∀ k < visits, (ev.spend (k + 1)).gasUsed ≤ ev.limits.gasLimit

instance (ev : Evaluator) (visits : Nat) : Decidable (ev.Allows visits) :=
  inferInstanceAs (Decidable (∀ k < visits, _))

variable {ev : Evaluator} {next : Next}

theorem allows_zero (ev : Evaluator) : ev.Allows 0 := fun _ hk => absurd hk (Nat.not_lt_zero _)

/-- What is allowed in two parts. -/
theorem allows_add_iff {n m : Nat} :
    ev.Allows (n + m) ↔ ev.Allows n ∧ (ev.spend n).Allows m := by
  constructor
  · intro h
    refine ⟨fun k hk => h k (by omega), fun k hk => ?_⟩
    have hlater := h (n + k) (by omega)
    rwa [Nat.add_assoc, spend_add] at hlater
  · intro h k hk
    rcases h with ⟨hn, hm⟩
    by_cases hfirst : k < n
    · exact hn k hfirst
    · have hlater := hm (k - n) (by omega)
      have hk' : n + (k - n + 1) = k + 1 := by omega
      rwa [← spend_add, hk'] at hlater

theorem Allows.mono {n m : Nat} (h : ev.Allows n) (hm : m ≤ n) : ev.Allows m :=
  fun k hk => h k (Nat.lt_of_lt_of_le hk hm)

theorem allows_one_iff : ev.Allows 1 ↔ ev.gasUsed + 1 ≤ ev.limits.gasLimit := by
  constructor
  · intro h
    exact h 0 Nat.one_pos
  · intro h k hk
    obtain rfl : k = 0 := by omega
    exact h

/-- Below the limit, the visits are allowed that do not take the count above it.  Under the largest
word this is all of them. -/
theorem allows_iff (hopen : ev.gasUsed ≤ ev.limits.gasLimit) {n : Nat} :
    ev.Allows n ↔ ev.gasUsed.toNat + n ≤ ev.limits.gasLimit.toNat ∨
      ev.limits.gasLimit.toNat + 1 = UInt64.size := by
  have hword := ev.limits.gasLimit.toNat_lt_size
  rw [UInt64.le_iff_toNat_le] at hopen
  constructor
  · intro h
    refine Classical.byContradiction fun hnot => ?_
    -- the visit that begins at the limit
    have hlast := h (ev.limits.gasLimit.toNat - ev.gasUsed.toNat) (by omega)
    rw [UInt64.le_iff_toNat_le, toNat_gasUsed_spend (by omega)] at hlast
    omega
  · intro h k hk
    rw [UInt64.le_iff_toNat_le]
    rcases h with hwithin | hlargest
    · rw [toNat_gasUsed_spend (by omega)]
      omega
    · have hcount := (ev.spend (k + 1)).gasUsed.toNat_lt_size
      omega

/-- Every visit is allowed under the largest word, and under no other limit. -/
theorem forall_allows_iff :
    (∀ n, ev.Allows n) ↔ ev.limits.gasLimit.toNat + 1 = UInt64.size := by
  have hlimit := ev.limits.gasLimit.toNat_lt_size
  have hcount := ev.gasUsed.toNat_lt_size
  constructor
  · intro h
    -- the visit that makes the count the largest word, be it after having come round
    let k := 2 * UInt64.size - 2 - ev.gasUsed.toNat
    have hlast := h (k + 1) k (Nat.lt_succ_self k)
    have hfull : (ev.spend (k + 1)).gasUsed.toNat = UInt64.size - 1 := by
      show (ev.gasUsed + UInt64.ofNat (k + 1)).toNat = _
      rw [UInt64.toNat_add, UInt64.toNat_ofNat']
      show (ev.gasUsed.toNat + (k + 1) % UInt64.size) % UInt64.size = _
      rw [Nat.add_mod_mod]
      have hsum : ev.gasUsed.toNat + (k + 1) = UInt64.size + (UInt64.size - 1) := by
        show _ + (2 * UInt64.size - 2 - _ + 1) = _
        have hsize : UInt64.size = 18446744073709551616 := rfl
        omega
      rw [hsum, Nat.add_mod_left]
      rfl
    rw [UInt64.le_iff_toNat_le, hfull] at hlast
    omega
  · intro h n k hk
    rw [UInt64.le_iff_toNat_le]
    have hword := (ev.spend (k + 1)).gasUsed.toNat_lt_size
    omega

/-- Under any other limit than the largest word there is a first visit that is refused. -/
theorem exists_refused (h : ev.limits.gasLimit.toNat + 1 < UInt64.size) :
    ∃ n, ev.Allows n ∧ ¬ ev.Allows (n + 1) := by
  refine Classical.byContradiction fun hnone => ?_
  have hall : ∀ n, ev.Allows n := by
    intro n
    induction n with
    | zero => exact ev.allows_zero
    | succ n ih => exact Classical.byContradiction fun hn => hnone ⟨n, ih, hn⟩
  have hlargest := forall_allows_iff.1 hall
  omega

/-- At its limit or above it, an evaluator refuses the next visit. -/
theorem not_allows_one (hfull : ev.limits.gasLimit ≤ ev.gasUsed)
    (hroom : ev.gasUsed.toNat + 1 < UInt64.size) : ¬ ev.Allows 1 := by
  intro h
  have hone := h 0 Nat.one_pos
  rw [UInt64.le_iff_toNat_le, toNat_gasUsed_spend hroom] at hone
  rw [UInt64.le_iff_toNat_le] at hfull
  omega

/-! ## A visit at a time -/

@[simp] theorem run_halt (ev : Evaluator) (outcome : Except Fault Value) :
    ev.run (.halt outcome) = some (outcome.mapError .fault, ev) := by
  rw [run]

section Visit

variable (e : Expr) (env : Env) (stack : List Expr) (frames : List Frame)

theorem run_visit_of_allowed (h : ev.Allows 1) :
    ev.run (.visit e env stack frames) = (ev.spend 1).run (Machine.visit e env stack frames) := by
  have hopen : ¬ ev.limits.gasLimit < (ev.spend 1).gasUsed :=
    UInt64.not_lt.2 (h 0 Nat.one_pos)
  have htick : ev.tick = (.ok (), ev.spend 1) := Prod.ext (if_neg hopen) rfl
  rw [run, htick]

theorem run_visit_of_refused (h : ¬ ev.Allows 1) :
    ev.run (.visit e env stack frames) = some (.error .gasExhausted, ev.spend 1) := by
  have hclosed : ev.limits.gasLimit < (ev.spend 1).gasUsed :=
    UInt64.not_le.1 fun hle => h (allows_one_iff.2 hle)
  have htick : ev.tick = (.error .gasExhausted, ev.spend 1) := Prod.ext (if_pos hclosed) rfl
  rw [run, htick]

end Visit

/-! ## Courses -/

/-- The courses that a run can take, with its answer.  What the machine does is said by
`Machine.run`, on a budget of the visits that are made. -/
inductive Course (ev : Evaluator) (next : Next) :
    Option (Except EvalError Value × Evaluator) → Prop where
  | ends {outcome : Except Fault Value} {n : Nat} (hallowed : ev.Allows n)
      (hrun : Machine.run n next = some (outcome, 0)) :
      Course ev next (some (outcome.mapError .fault, ev.spend n))
  | cut {n : Nat} (hallowed : ev.Allows n) (hrefused : ¬ ev.Allows (n + 1))
      (hrun : Machine.run n next = none) :
      Course ev next (some (.error .gasExhausted, ev.spend (n + 1)))
  | endless (hallowed : ∀ n, ev.Allows n) (hrun : ∀ n, Machine.run n next = none) :
      Course ev next none

/-- A run that ends within the visits that are allowed. -/
theorem run_of_ends {outcome : Except Fault Value} {n : Nat} (hallowed : ev.Allows n)
    (hrun : Machine.run n next = some (outcome, 0)) :
    ev.run next = some (outcome.mapError .fault, ev.spend n) := by
  induction n generalizing ev next with
  | zero =>
    cases next with
    | halt o =>
      obtain ⟨rfl, -⟩ := Prod.mk.inj (Option.some.inj hrun)
      rw [run_halt, spend_zero]
    | visit e env stack frames => cases hrun
  | succ n ih =>
    cases next with
    | halt o => cases hrun
    | visit e env stack frames =>
      rw [Nat.add_comm] at hallowed ⊢
      obtain ⟨hone, hrest⟩ := allows_add_iff.1 hallowed
      rw [run_visit_of_allowed _ _ _ _ hone, ih hrest hrun, spend_add]

/-- A run that asks for the first visit that is refused. -/
theorem run_of_cut {n : Nat} (hallowed : ev.Allows n) (hrefused : ¬ ev.Allows (n + 1))
    (hrun : Machine.run n next = none) :
    ev.run next = some (.error .gasExhausted, ev.spend (n + 1)) := by
  induction n generalizing ev next with
  | zero =>
    cases next with
    | halt o => cases hrun
    | visit e env stack frames => exact run_visit_of_refused e env stack frames hrefused
  | succ n ih =>
    cases next with
    | halt o => cases hrun
    | visit e env stack frames =>
      rw [Nat.add_comm] at hallowed
      obtain ⟨hone, hrest⟩ := allows_add_iff.1 hallowed
      have hrefused' : ¬ (ev.spend 1).Allows (n + 1) := by
        intro h
        rw [Nat.add_comm] at hrefused
        exact hrefused (allows_add_iff.2 ⟨hone, h⟩)
      rw [run_visit_of_allowed _ _ _ _ hone, ih hrest hrefused' hrun, ← spend_add,
        Nat.add_comm 1]

/-- A run that is never refused a visit and never ends has no answer. -/
theorem run_of_endless (hallowed : ∀ n, ev.Allows n) (hrun : ∀ n, Machine.run n next = none) :
    ev.run next = none := by
  refine Option.eq_none_iff_forall_not_mem.2 fun answer hanswer => ?_
  -- by induction on the steps to the answer, of which every one is a visit
  have hends := run.partial_correctness
    (fun ev next _ => ¬ ((∀ n, ev.Allows n) ∧ ∀ n, Machine.run n next = none))
    ?_ ev next answer hanswer
  · exact hends ⟨hallowed, hrun⟩
  · intro rec ih ev next answer hanswer h
    rcases h with ⟨hallowed, hrun⟩
    cases next with
    | halt o => cases hrun 0
    | visit e env stack frames =>
      have hopen : ¬ ev.limits.gasLimit < (ev.spend 1).gasUsed :=
        UInt64.not_lt.2 (hallowed 1 0 Nat.one_pos)
      have htick : ev.tick = (.ok (), ev.spend 1) := Prod.ext (if_neg hopen) rfl
      rw [htick] at hanswer
      refine ih _ _ _ hanswer ⟨fun n => ?_, fun n => hrun (n + 1)⟩
      exact (allows_add_iff.1 (hallowed (1 + n))).2

/-- A run takes one of the courses. -/
theorem course (ev : Evaluator) (next : Next) : Course ev next (ev.run next) := by
  by_cases hends : ∃ n outcome, ev.Allows n ∧ Machine.run n next = some (outcome, 0)
  · obtain ⟨n, outcome, hallowed, hrun⟩ := hends
    rw [run_of_ends hallowed hrun]
    exact .ends hallowed hrun
  · have hcut : ∀ n, ev.Allows n → Machine.run n next = none := by
      intro n hallowed
      refine Option.eq_none_iff_forall_not_mem.2 fun r hr => ?_
      obtain ⟨outcome, left⟩ := r
      obtain ⟨m, rfl, hm⟩ := Machine.exists_exact_of_run hr
      exact hends ⟨m, outcome, hallowed.mono (Nat.le_add_right m left), hm⟩
    by_cases hlargest : ev.limits.gasLimit.toNat + 1 = UInt64.size
    · have hall := forall_allows_iff.2 hlargest
      have hrun := fun n => hcut n (hall n)
      rw [run_of_endless hall hrun]
      exact .endless hall hrun
    · have hword := ev.limits.gasLimit.toNat_lt_size
      obtain ⟨n, hallowed, hrefused⟩ := @exists_refused ev (by omega)
      have hrun := hcut n hallowed
      rw [run_of_cut hallowed hrefused hrun]
      exact .cut hallowed hrefused hrun

/-- **Runs and courses.**  The answer of a run is that of the course it takes. -/
theorem run_eq_iff {answer : Option (Except EvalError Value × Evaluator)} :
    ev.run next = answer ↔ Course ev next answer := by
  constructor
  · intro h
    exact h ▸ ev.course next
  · intro h
    cases h with
    | ends hallowed hrun => exact run_of_ends hallowed hrun
    | cut hallowed hrefused hrun => exact run_of_cut hallowed hrefused hrun
    | endless hallowed hrun => exact run_of_endless hallowed hrun

/-- Under any limit but the largest word every run has an answer. -/
theorem isSome_run (h : ev.limits.gasLimit.toNat + 1 < UInt64.size) (next : Next) :
    (ev.run next).isSome = true := by
  obtain ⟨n, hallowed, hrefused⟩ := exists_refused h
  have hcourse := ev.course next
  generalize ev.run next = answer at hcourse ⊢
  cases hcourse with
  | ends _ _ => rfl
  | cut _ _ _ => rfl
  | endless hall _ => exact absurd (hall (n + 1)) hrefused

end Evaluator

end WireLambda
