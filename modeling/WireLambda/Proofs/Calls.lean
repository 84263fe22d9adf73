import WireLambda.Eval.BigStep
import WireLambda.Eval.Evaluator

/-!
# Calls of an evaluator

An evaluator is used in three ways: to evaluate a node, to force a value, and to evaluate a
program.  A `Call` is one such use, so that what holds of all three is said and proved once.

Each call is a `Task` of the rules, in an environment and with arguments waiting
(`Call.Computes`), and each starts the machine somewhere (`Call.start`).  The two fit
together: `Call.machine_run_eq_some_iff` says that the machine ends a call with an outcome
exactly when the rules give that outcome, and has then spent exactly the visits that the
rules count; `Call.machine_run_eq_none_iff` says when the budget does not suffice.

Both come from the two halves in `Eval.BigStep`.  What has to be added is that nothing is
left to do after a call: the frames of a call only hand a finished value on, and the outcome
of a call that has a frame is finished (`Computes.ne_deferred`).

The rules themselves are then seen to be single-valued, in outcome and in cost
(`Computes.unique`): a machine run has one result.
-/

namespace WireLambda

/-- One use of an evaluator. -/
inductive Call where
  | evalExpr (e : Expr) (env : Env) (stack : List Expr)
  | force (v : Value) (env : Env) (stack : List Expr)
  | evaluate (e : Expr)

namespace Call

/-- Makes a call. -/
def run (ev : Evaluator) : Call → Option (Except EvalError Value × Evaluator)
  | evalExpr e env stack => ev.evalExpr e env stack
  | force v env stack => ev.force v env stack
  | evaluate e => ev.evaluate e

/-- The environment that a call evaluates in. -/
def env : Call → Env
  | evalExpr _ env _ => env
  | force _ env _ => env
  | evaluate _ => .empty

/-- The arguments that wait for a call. -/
def stack : Call → List Expr
  | evalExpr _ _ stack => stack
  | force _ _ stack => stack
  | evaluate _ => []

/-- What a call asks for. -/
def task : Call → Task
  | evalExpr e _ _ => .visit e
  | force v _ _ => .force v
  | evaluate e => .finish e

/-- What is left to do after a call: a call that wants a finished value hands it on. -/
def frames : Call → List Frame
  | evalExpr _ _ _ => []
  | force _ env stack => [⟨env, stack, .result⟩]
  | evaluate _ => [⟨.empty, [], .result⟩]

/-- Where the machine starts on a call. -/
def start : Call → Next
  | evalExpr e env stack => .visit e env stack []
  | force v env stack => Machine.give v [⟨env, stack, .result⟩]
  | evaluate e => .visit e .empty [] [⟨.empty, [], .result⟩]

/-- What the rules say of a call. -/
def Computes (c : Call) : Except Fault Value → Nat → Prop :=
  WireLambda.Computes c.env c.stack c.task

/-- The call as the evaluator makes it: a run from where the machine starts. -/
theorem run_eq (ev : Evaluator) (c : Call) : c.run ev = ev.run c.start := by
  cases c <;> rfl

theorem starts (c : Call) : c.task.Starts c.env c.stack c.frames c.start := by
  cases c with
  | evalExpr e env stack => rfl
  | force v env stack => exact ⟨_, _, rfl, rfl⟩
  | evaluate e => exact ⟨_, _, rfl, rfl⟩

/-! ## The machine on a call -/

/-- A frame that only hands a value on does nothing to an outcome that is finished. -/
theorem resume_result {env : Env} {stack : List Expr} {outcome : Except Fault Value}
    (h : ∀ e, outcome ≠ .ok (.deferred e)) :
    Machine.resume [⟨env, stack, .result⟩] outcome = .halt outcome := by
  cases outcome with
  | error fault => rfl
  | ok v =>
    cases v with
    | scalar s => rfl
    | deferred e => exact absurd rfl (h e)

/-- Once a call has come to its outcome, nothing is left to do. -/
theorem resume_frames {c : Call} {outcome : Except Fault Value} {n : Nat}
    (h : c.Computes outcome n) : Machine.resume c.frames outcome = .halt outcome := by
  cases c with
  | evalExpr e env stack => cases outcome <;> rfl
  | force v env stack => exact resume_result (Computes.ne_deferred h (by simp [task]))
  | evaluate e => exact resume_result (Computes.ne_deferred h (by simp [task]))

/-- What the rules say of a call happens on the machine, and ends it. -/
theorem machine_run_of_computes {c : Call} {outcome : Except Fault Value} {n : Nat}
    (h : c.Computes outcome n) (left : Nat) :
    Machine.run (left + n) c.start = some (outcome, left) := by
  rw [Machine.run_eq_of_computes h c.frames c.start c.starts, resume_frames h,
    Machine.run_halt]

/-- A call comes to an outcome within a budget, or the machine runs out of the budget. -/
theorem computes_or_run_eq_none (c : Call) (budget : Nat) :
    (∃ outcome n, n ≤ budget ∧ c.Computes outcome n) ∨
      Machine.run budget c.start = none :=
  (Machine.computes_or_exhausted budget c.env c.stack c.task).imp id
    fun h => h c.frames c.start c.starts

/-- **Outcomes.**  The machine ends a call with an outcome exactly when the rules give it,
and what it has spent of the budget is the number of visits that the rules count. -/
theorem machine_run_eq_some_iff {c : Call} {budget left : Nat}
    {outcome : Except Fault Value} :
    Machine.run budget c.start = some (outcome, left) ↔
      ∃ n, left + n = budget ∧ c.Computes outcome n := by
  constructor
  · intro h
    rcases c.computes_or_run_eq_none budget with ⟨o, n, hn, hc⟩ | hnone
    · have hrun := machine_run_of_computes hc (budget - n)
      rw [Nat.sub_add_cancel hn, h] at hrun
      obtain ⟨rfl, rfl⟩ := Prod.mk.inj (Option.some.inj hrun)
      exact ⟨n, Nat.sub_add_cancel hn, hc⟩
    · rw [hnone] at h
      exact absurd h (by simp)
  · intro h
    rcases h with ⟨n, rfl, hc⟩
    exact machine_run_of_computes hc left

/-- What a call costs is what the machine needs for it. -/
theorem machine_run_exact_iff {c : Call} {n : Nat} {outcome : Except Fault Value} :
    Machine.run n c.start = some (outcome, 0) ↔ c.Computes outcome n := by
  simp [machine_run_eq_some_iff]

/-- **Exhaustion.**  The machine runs out of budget on a call exactly when every outcome
that the rules give costs more. -/
theorem machine_run_eq_none_iff {c : Call} {budget : Nat} :
    Machine.run budget c.start = none ↔
      ∀ outcome n, c.Computes outcome n → budget < n := by
  constructor
  · intro h outcome n hc
    refine Nat.lt_of_not_le fun hn => ?_
    have hrun := machine_run_of_computes hc (budget - n)
    rw [Nat.sub_add_cancel hn, h] at hrun
    exact absurd hrun (by simp)
  · intro h
    rcases c.computes_or_run_eq_none budget with ⟨o, n, hn, hc⟩ | hnone
    · exact absurd (h o n hc) (Nat.not_lt.2 hn)
    · exact hnone

/-- **Visits more.**  If a call takes the course of another one after `k` visits of its own, as
far as that one can be seen on a budget, then it comes to the same on `k` visits more. -/
theorem machine_run_add {c c' : Call} {budget k : Nat}
    (hforth : ∀ o n, n ≤ budget → c'.Computes o n → c.Computes o (n + k))
    (hback : ∀ o m, c.Computes o m → ∃ o' n, n + k ≤ m ∧ c'.Computes o' n) :
    Machine.run (budget + k) c.start = Machine.run budget c'.start := by
  rcases c'.computes_or_run_eq_none budget with ⟨o, n, hn, h⟩ | hnone
  · have hless : budget - n + n = budget := Nat.sub_add_cancel hn
    have hmore : budget - n + (n + k) = budget + k := by omega
    have hrun := machine_run_of_computes h (budget - n)
    have hrun' := machine_run_of_computes (hforth o n hn h) (budget - n)
    rw [hless] at hrun
    rw [hmore] at hrun'
    rw [hrun, hrun']
  · rw [hnone, machine_run_eq_none_iff]
    intro o m hm
    obtain ⟨o', n, hle, hn⟩ := hback o m hm
    have hlt := machine_run_eq_none_iff.1 hnone o' n hn
    omega

/-- A call has one outcome, and one cost. -/
theorem computes_unique {c : Call} {o o' : Except Fault Value} {n n' : Nat}
    (h : c.Computes o n) (h' : c.Computes o' n') : o = o' ∧ n = n' := by
  have hrun := machine_run_of_computes h n'
  have hrun' := machine_run_of_computes h' n
  rw [Nat.add_comm, hrun'] at hrun
  obtain ⟨rfl, rfl⟩ := Prod.mk.inj (Option.some.inj hrun)
  exact ⟨rfl, rfl⟩

/-! ## Calls without a limit -/

/-- Whether a call gives a scalar under some limit.  The limit is a number of any size, so
this leaves the 64-bit words of an evaluator aside. -/
def Gives (c : Call) (s : Scalar) : Prop :=
  ∃ limit left, Machine.run limit c.start = some (.ok (.scalar s), left)

/-- A call ends with an outcome under a limit, and has used some gas.  As for `Gives`, both
numbers are of any size. -/
def Ends (c : Call) (limit : Nat) (outcome : Except Fault Value) (gas : Nat) : Prop :=
  ∃ left, Machine.run limit c.start = some (outcome, left) ∧ left + gas = limit

/-- A call ends with what the rules say it comes to, at its cost, under every limit that
allows the cost. -/
theorem ends_iff {c : Call} {limit gas : Nat} {outcome : Except Fault Value} :
    c.Ends limit outcome gas ↔ gas ≤ limit ∧ c.Computes outcome gas := by
  constructor
  · intro h
    rcases h with ⟨left, hrun, hlimit⟩
    obtain ⟨n, hn, hc⟩ := machine_run_eq_some_iff.1 hrun
    obtain rfl : n = gas := by omega
    exact ⟨by omega, hc⟩
  · intro h
    rcases h with ⟨hle, hc⟩
    have hlimit := Nat.sub_add_cancel hle
    exact ⟨limit - gas, machine_run_eq_some_iff.2 ⟨gas, hlimit, hc⟩, hlimit⟩

/-- A call gives what the rules say it comes to. -/
theorem gives_iff {c : Call} {s : Scalar} :
    c.Gives s ↔ ∃ n, c.Computes (.ok (.scalar s)) n := by
  constructor
  · intro h
    rcases h with ⟨limit, left, hrun⟩
    obtain ⟨n, -, hc⟩ := machine_run_eq_some_iff.1 hrun
    exact ⟨n, hc⟩
  · intro h
    rcases h with ⟨n, hc⟩
    exact ⟨0 + n, 0, machine_run_of_computes hc 0⟩

/-- A call gives one scalar at most, whatever the limits. -/
theorem Gives.unique {c : Call} {s s' : Scalar} (h : c.Gives s) (h' : c.Gives s') :
    s = s' := by
  obtain ⟨n, hc⟩ := gives_iff.1 h
  obtain ⟨n', hc'⟩ := gives_iff.1 h'
  obtain ⟨heq, -⟩ := computes_unique hc hc'
  exact Value.scalar.inj (Except.ok.inj heq)

end Call

/-- **The rules are single-valued.**  A task has one outcome, and one cost. -/
theorem Computes.unique {env : Env} {stack : List Expr} {task : Task}
    {o o' : Except Fault Value} {n n' : Nat} (h : Computes env stack task o n)
    (h' : Computes env stack task o' n') : o = o' ∧ n = n' := by
  cases task with
  | visit e => exact Call.computes_unique (c := .evalExpr e env stack) h h'
  | force v => exact Call.computes_unique (c := .force v env stack) h h'
  | finish e =>
    exact Call.computes_unique (c := .force (.deferred e) env stack) (.forceDeferred h)
      (.forceDeferred h')

end WireLambda
