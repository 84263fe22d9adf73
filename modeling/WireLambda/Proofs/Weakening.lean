import Mathlib.Data.List.Forall2
import WireLambda.Proofs.Metering

/-!
# More bindings and more arguments

An evaluation looks at the environment and at the waiting arguments from above: it looks up
variables by name, and it pops arguments one at a time.  What it does not reach it cannot
notice.  So an evaluation that never misses a variable or an argument goes the same way in
an environment with more bindings and with more arguments underneath, at the same cost.

The comparison is between two machines, and is made visit by visit.  `Next.Within` says that
the second machine does what the first one does, with all that the first one has in store and
more; or that the first one has stopped because it missed something, after which the second
one may do anything.  A visit keeps the two in step (`Machine.visit_within`), and so a run
does, on any budget (`Machine.run_within`).  That the budget is the same is what makes the
statement one about gas, too: of two machines in step, one runs out exactly when the other
does.

The exception is needed, since what was missed may be there in the larger place.  `Missed`
names the two outcomes that are excepted.

## Main results

* `Computes.weaken`: weakening by the rules, at the same cost.
* `context_weakening`: weakening of what an evaluator answers, with whatever gas it has.
-/

namespace WireLambda

namespace Env

/-- The second environment has every binding of the first. -/
def Extends (env env' : Env) : Prop := ∀ x v, env.get? x = some v → env'.get? x = some v

/-- Every environment extends the empty one. -/
theorem empty_extends (env : Env) : Extends empty env := by
  intro x v h
  exact absurd h (by simp)

/-- Binding a variable in both environments keeps one an extension of the other. -/
theorem Extends.bind {env env' : Env} (h : env.Extends env') (x : VarId) (v : Value) :
    (env.bind x v).Extends (env'.bind x v) := by
  intro y w hy
  rw [get?_bind] at hy ⊢
  split at hy
  · next hxy => rwa [if_pos hxy]
  · next hxy => rw [if_neg hxy]; exact h y w hy

/-- Binding a variable that was not bound extends an environment. -/
theorem extends_bind {env : Env} {x : VarId} (h : env.get? x = none) (v : Value) :
    env.Extends (env.bind x v) := by
  intro y w hy
  have hne : x ≠ y := by
    rintro rfl
    rw [h] at hy
    exact absurd hy (by simp)
  rw [get?_bind_of_ne hne]
  exact hy

end Env

/-- The outcomes of an evaluation that missed something: a variable or an argument. -/
def Missed (outcome : Except Fault Value) : Prop :=
  ∃ x, outcome = .error (.unboundVariable x) ∨ outcome = .error (.stackUnderflow x)

theorem not_missed_ok (v : Value) : ¬ Missed (.ok v) := by
  rintro ⟨x, h | h⟩ <;> exact absurd h (by simp)

/-! ## Two machines in step -/

/-- The same work is left over in both frames, and the second one is to do it in an environment
with more bindings and with more arguments underneath. -/
structure Frame.Within (f f' : Frame) : Prop where
  env : f.env.Extends f'.env
  stack : f.stack <+: f'.stack
  use : f.use = f'.use

/-- The second machine does the same as the first one, in larger places; or the first one has
missed something. -/
inductive Next.Within : Next → Next → Prop where
  | missed {outcome next'} (h : Missed outcome) : Within (.halt outcome) next'
  | halt {outcome} : Within (.halt outcome) (.halt outcome)
  | visit {e env env' stack stack' frames frames'} (henv : env.Extends env')
      (hstack : stack <+: stack') (hframes : List.Forall₂ Frame.Within frames frames') :
      Within (.visit e env stack frames) (.visit e env' stack' frames')

namespace Machine

/-- A value that is handed to the same work goes the same way.  The induction is on the frames:
an operator hands its result to the ones that are left. -/
theorem give_within {frames frames' : List Frame}
    (h : List.Forall₂ Frame.Within frames frames') (v : Value) :
    (give v frames).Within (give v frames') := by
  induction h generalizing v with
  | nil => exact .halt
  | @cons f f' frames frames' hf hframes ih =>
    have hall : List.Forall₂ Frame.Within (f :: frames) (f' :: frames') := .cons hf hframes
    have hresume : ∀ outcome, (resume frames outcome).Within (resume frames' outcome) := by
      intro outcome
      cases outcome with
      | ok v => exact ih v
      | error fault => exact .halt
    obtain ⟨env, stack, use⟩ := f
    obtain ⟨env', stack', use'⟩ := f'
    obtain ⟨henv, hstack, huse⟩ := hf
    obtain rfl : use = use' := huse
    cases v with
    | deferred e => exact .visit henv hstack hall
    | scalar s =>
      cases use with
      | result => exact ih _
      | unary op =>
        rw [give_unary, give_unary]
        exact hresume _
      | left op r => exact .visit henv hstack (.cons ⟨henv, hstack, rfl⟩ hframes)
      | right op l =>
        rw [give_right, give_right]
        exact hresume _
      | branch t e =>
        by_cases hs : ∃ b, s = .bool b
        · obtain ⟨b, rfl⟩ := hs
          cases b <;> exact .visit henv hstack hframes
        · have hmismatch : ∀ b, s ≠ .bool b := fun b hb => hs ⟨b, hb⟩
          rw [give_branch_mismatch hmismatch, give_branch_mismatch hmismatch]
          exact .halt

/-- **One visit** keeps two machines in step. -/
theorem visit_within {env env' : Env} {stack stack' : List Expr} {frames frames' : List Frame}
    (henv : env.Extends env') (hstack : stack <+: stack')
    (hframes : List.Forall₂ Frame.Within frames frames') (e : Expr) :
    (visit e env stack frames).Within (visit e env' stack' frames') := by
  have hpart : ∀ use, List.Forall₂ Frame.Within (⟨env, stack, use⟩ :: frames)
      (⟨env', stack', use⟩ :: frames') :=
    fun use => .cons ⟨henv, hstack, rfl⟩ hframes
  cases e with
  | literal s => exact give_within hframes _
  | var x =>
    cases hx : env.get? x with
    | none =>
      rw [visit_var_unbound hx]
      exact .missed ⟨x, .inl rfl⟩
    | some v =>
      have hx' : env'.get? x = some v := henv x v hx
      by_cases hlambda : ∃ y body, v = .deferred (.lambda y body)
      · obtain ⟨y, body, rfl⟩ := hlambda
        rw [visit_var_lambda hx, visit_var_lambda hx']
        exact .visit henv hstack hframes
      · have hv : ∀ y body, v ≠ .deferred (.lambda y body) :=
          fun y body hv => hlambda ⟨y, body, hv⟩
        rw [visit_var_value hx hv, visit_var_value hx' hv]
        exact give_within hframes v
  | unary op e => exact .visit henv hstack (hpart _)
  | binary op l r =>
    by_cases hop : op = .apply
    · subst hop
      have hpushed : r :: stack <+: r :: stack' := (List.prefix_cons_inj r).2 hstack
      exact .visit henv hpushed (hpart _)
    · rw [visit_binary hop, visit_binary hop]
      exact .visit henv hstack (hpart _)
  | lambda x body =>
    cases stack with
    | nil => exact .missed ⟨x, .inr rfl⟩
    | cons a stack =>
      obtain ⟨under, rfl⟩ := hstack
      exact .visit (henv.bind x _) (List.prefix_append stack under) hframes
  | ite c t e => exact .visit henv hstack (hpart _)

/-- **A run.**  A machine that is in step with one that misses nothing comes to the same on the
same budget: it ends with the same outcome and has as much left, or it runs out as well. -/
theorem run_within {next next' : Next} (h : next.Within next') (budget : Nat) :
    (∃ outcome left, run budget next = some (outcome, left) ∧ Missed outcome) ∨
      run budget next' = run budget next := by
  induction budget generalizing next next' with
  | zero =>
    cases h with
    | missed h => exact .inl ⟨_, _, run_halt .., h⟩
    | halt => exact .inr rfl
    | visit henv hstack hframes => exact .inr rfl
  | succ budget ih =>
    cases h with
    | missed h => exact .inl ⟨_, _, run_halt .., h⟩
    | halt => exact .inr rfl
    | visit henv hstack hframes => exact ih (visit_within henv hstack hframes _)

/-- A machine that is in step with one that runs out of a budget runs out of it as well. -/
theorem run_within_of_none {next next' : Next} (h : next.Within next') {budget : Nat}
    (hrun : run budget next = none) : run budget next' = none := by
  rcases run_within h budget with ⟨outcome, left, hsome, -⟩ | hsame
  · rw [hrun] at hsome
    cases hsome
  · exact hsame.trans hrun

end Machine

/-! ## Calls -/

namespace Call

variable {env env' : Env} {stack stack' : List Expr}

/-- The same node, visited in a larger place. -/
theorem evalExpr_within (henv : env.Extends env') (hstack : stack <+: stack') (e : Expr) :
    (evalExpr e env stack).start.Within (evalExpr e env' stack').start :=
  .visit henv hstack .nil

/-- The same value, forced in a larger place. -/
theorem force_within (henv : env.Extends env') (hstack : stack <+: stack') (v : Value) :
    (force v env stack).start.Within (force v env' stack').start := by
  have hframe : Frame.Within ⟨env, stack, .result⟩ ⟨env', stack', .result⟩ :=
    ⟨henv, hstack, rfl⟩
  exact Machine.give_within (.cons hframe .nil) v

/-- What a call comes to without missing anything, a call in step with it comes to, at the same
cost. -/
theorem computes_of_within {c c' : Call} (h : c.start.Within c'.start)
    {outcome : Except Fault Value} {n : Nat} (hc : c.Computes outcome n)
    (hmissed : ¬ Missed outcome) : c'.Computes outcome n := by
  have hrun : Machine.run (0 + n) c.start = some (outcome, 0) := machine_run_of_computes hc 0
  rcases Machine.run_within h (0 + n) with ⟨o, left, ho, hmiss⟩ | hsame
  · rw [hrun] at ho
    obtain ⟨rfl, -⟩ := Prod.mk.inj (Option.some.inj ho)
    exact absurd hmiss hmissed
  · rw [hrun] at hsame
    obtain ⟨m, hm, hc'⟩ := machine_run_eq_some_iff.1 hsame
    obtain rfl : m = n := by omega
    exact hc'

end Call

/-- **Weakening.**  A task that misses nothing comes to the same outcome, at the same cost,
with more bindings and with more arguments underneath. -/
theorem Computes.weaken {env env' : Env} {stack : List Expr} {task : Task}
    {outcome : Except Fault Value} {n : Nat} (h : Computes env stack task outcome n)
    (hmissed : ¬ Missed outcome) (henv : env.Extends env') (under : List Expr) :
    Computes env' (stack ++ under) task outcome n := by
  have hunder : stack <+: stack ++ under := List.prefix_append stack under
  have hforce : ∀ {v}, Computes env stack (.force v) outcome n →
      Computes env' (stack ++ under) (.force v) outcome n :=
    fun hv => Call.computes_of_within (Call.force_within henv hunder _) hv hmissed
  cases task with
  | visit e => exact Call.computes_of_within (Call.evalExpr_within henv hunder e) h hmissed
  | force v => exact hforce h
  | finish e =>
    have hdeferred := hforce (.forceDeferred h)
    generalize stack ++ under = stack' at hdeferred ⊢
    cases hdeferred with
    | forceDeferred h => exact h

/-! ## The main result -/

namespace Evaluator

/-- Whether an answer says that something was missed: a variable or an argument. -/
def Missed (answer : Except EvalError Value) : Prop :=
  ∃ x, answer = .error (.fault (.unboundVariable x)) ∨
    answer = .error (.fault (.stackUnderflow x))

/-- An evaluator answers the same for two machines in step, unless the first one missed
something, and has used the same gas; or it answers neither of them. -/
theorem run_eq_of_within {next next' : Next} (h : next.Within next') (ev : Evaluator)
    (hmissed : ∀ answer ∈ ev.run next, ¬ Missed answer.1) : ev.run next' = ev.run next := by
  have hcourse := ev.course next
  generalize ev.run next = answer at hcourse hmissed ⊢
  rw [run_eq_iff]
  cases hcourse with
  | @ends outcome n hallowed hrun =>
    rcases Machine.run_within h n with ⟨o, left, ho, x, hx⟩ | hsame
    · rw [hrun] at ho
      obtain ⟨rfl, -⟩ := Prod.mk.inj (Option.some.inj ho)
      refine absurd ⟨x, ?_⟩ (hmissed _ rfl)
      rcases hx with rfl | rfl
      · exact .inl rfl
      · exact .inr rfl
    · exact .ends hallowed (hsame.trans hrun)
  | @cut n hallowed hrefused hrun =>
    exact .cut hallowed hrefused (Machine.run_within_of_none h hrun)
  | endless hallowed hrun =>
    exact .endless hallowed fun n => Machine.run_within_of_none h (hrun n)

end Evaluator

/-- **More bindings and more arguments underneath change nothing.**  A node that is evaluated,
or a value that is forced, without missing a variable or an argument gives the same answer, be
it a value, a fault or that the gas is exhausted, in every environment that has the same
bindings and more, and over any further arguments; and it uses the same gas.  Where it goes on for
ever, it does so there as well. -/
theorem context_weakening (ev : Evaluator) {env env' : Env} (henv : env.Extends env')
    (stack under : List Expr) :
    (∀ e, (∀ answer ∈ ev.evalExpr e env stack, ¬ Evaluator.Missed answer.1) →
      ev.evalExpr e env' (stack ++ under) = ev.evalExpr e env stack) ∧
    (∀ v, (∀ answer ∈ ev.force v env stack, ¬ Evaluator.Missed answer.1) →
      ev.force v env' (stack ++ under) = ev.force v env stack) := by
  have hunder : stack <+: stack ++ under := List.prefix_append stack under
  constructor
  · intro e hmissed
    exact Evaluator.run_eq_of_within (Call.evalExpr_within henv hunder e) ev hmissed
  · intro v hmissed
    exact Evaluator.run_eq_of_within (Call.force_within henv hunder v) ev hmissed

/-- With one more variable bound and one more argument underneath, a lambda takes the same
argument and leaves the other, and a variable that is bound to itself runs out of gas at the same
visit. -/
theorem context_weakening_selfBound :
    selfBound.Extends (selfBound.bind ⟨2⟩ (.scalar (.int 5))) ∧
      (Evaluator.new ⟨9⟩).evalExpr (.lambda ⟨3⟩ (.var ⟨3⟩))
          (selfBound.bind ⟨2⟩ (.scalar (.int 5))) [.var ⟨1⟩, .var ⟨2⟩] =
        some (.ok (.deferred (.var ⟨1⟩)), ⟨⟨9⟩, 2⟩) ∧
      (Evaluator.new ⟨9⟩).force (.deferred (.var ⟨1⟩))
          (selfBound.bind ⟨2⟩ (.scalar (.int 5))) [.var ⟨1⟩, .var ⟨2⟩] =
        some (.error .gasExhausted, ⟨⟨9⟩, 10⟩) := by
  have henv : selfBound.Extends (selfBound.bind ⟨2⟩ (.scalar (.int 5))) :=
    Env.extends_bind rfl _
  have hnode : (Evaluator.new ⟨9⟩).evalExpr (.lambda ⟨3⟩ (.var ⟨3⟩)) selfBound [.var ⟨1⟩] =
      some (.ok (.deferred (.var ⟨1⟩)), ⟨⟨9⟩, 2⟩) :=
    .trans (Evaluator.run_of_ends (n := 2) (by decide) rfl) rfl
  have hforce : (Evaluator.new ⟨9⟩).force (.deferred (.var ⟨1⟩)) selfBound [.var ⟨1⟩] =
      some (.error .gasExhausted, ⟨⟨9⟩, 10⟩) :=
    Evaluator.run_of_cut (n := 9) (by decide) (by decide) rfl
  obtain ⟨hevalExpr, hforced⟩ :=
    context_weakening (.new ⟨9⟩) henv [.var ⟨1⟩] [.var ⟨2⟩]
  refine ⟨henv, ?_, ?_⟩
  · rw [← hnode]
    refine hevalExpr _ ?_
    rw [hnode]
    rintro answer ⟨⟩ ⟨x, h | h⟩ <;> exact absurd h (by simp)
  · rw [← hforce]
    refine hforced _ ?_
    rw [hforce]
    rintro answer ⟨⟩ ⟨x, h | h⟩ <;> exact absurd h (by simp)

end WireLambda
