import WireLambda.Proofs.Metering
import WireLambda.Proofs.Spines

/-!
# Passing arguments

Lambdas that are applied to as many arguments pass these on to their body: the parameters
are bound to the arguments, in order and unevaluated, and the body is visited where the
applications stand, over the arguments that waited for them.  Each argument costs two visits, one
for its application and one for its lambda.

The applications finish what they hand on.  So what the body gives is what they give only if it
is finished already, and to finish it adds no visit.  If the body gives a deferred value, the
applications go on with it, over arguments that its lambdas have popped
(`Proofs.Projection`).

* `Computes.applyLambdas`: what the body gives finished, the applications give.
* `Computes.body_of_applyLambdas`: the applications give nothing before the body has given
  something.
* `Call.machine_run_applyLambdas`: so the body decides about the applications on every
  budget, also where the budget does not suffice for it.

The main result is `arguments_bind_in_order`.
-/

namespace WireLambda

/-- Lambdas over a body, applied to as many arguments. -/
def Expr.applyLambdas (binds : List (VarId × Expr)) (body : Expr) : Expr :=
  (Expr.lambdas (binds.map Prod.fst) body).applyAll (binds.map Prod.snd)

/-- What the body gives finished, lambdas over it that are applied to their arguments give, at two
visits for each of them. -/
theorem Computes.applyLambdas {env : Env} {stack : List Expr} {binds : List (VarId × Expr)}
    {body : Expr} {outcome : Except Fault Value} {n : Nat}
    (h : Computes (env.bindAll binds) stack (.visit body) outcome n)
    (hfinished : ∀ d, outcome ≠ .ok (.deferred d)) :
    Computes env stack (.visit (.applyLambdas binds body)) outcome (n + 2 * binds.length) := by
  cases binds with
  | nil => exact h
  | cons b rest =>
    -- the lambdas over all arguments, then the innermost application, then the others
    have hlambdas : Computes env ((b :: rest).map Prod.snd ++ stack)
        (.visit (.lambdas ((b :: rest).map Prod.fst) body)) outcome
          (n + (b :: rest).length) := computes_lambdas_iff.2 ⟨n, rfl, h⟩
    have hfirst : Computes env (rest.map Prod.snd ++ stack)
        (.visit (.apply (.lambdas ((b :: rest).map Prod.fst) body) b.2)) outcome
          (n + (b :: rest).length + 1) := hlambdas.apply_of_finished hfinished
    refine computes_applyAll_apply_iff.2 ⟨_, ?_, hfirst⟩
    rw [List.length_map, List.length_cons]
    omega

/-- Lambdas that are applied to their arguments give nothing unless the body gives something, two
visits for each argument before. -/
theorem Computes.body_of_applyLambdas {env : Env} {stack : List Expr}
    {binds : List (VarId × Expr)} {body : Expr} {outcome : Except Fault Value} {m : Nat}
    (h : Computes env stack (.visit (.applyLambdas binds body)) outcome m) :
    ∃ outcome' n, n + 2 * binds.length ≤ m ∧
      Computes (env.bindAll binds) stack (.visit body) outcome' n := by
  cases binds with
  | nil => exact ⟨outcome, m, Nat.le_refl m, h⟩
  | cons b rest =>
    obtain ⟨i, rfl, hfirst⟩ := computes_applyAll_apply_iff.1 h
    obtain ⟨outcome', j, hle, hlambdas⟩ := hfirst.function_of_apply
    obtain ⟨n, rfl, hbody⟩ := (@computes_lambdas_iff env stack body (b :: rest) _ _).1 hlambdas
    refine ⟨outcome', n, ?_, hbody⟩
    rw [List.length_cons] at hle
    rw [List.length_map, List.length_cons]
    omega

/-- If the body never gives a deferred value, what it gives is what the applications give. -/
theorem computes_applyLambdas_iff {env : Env} {stack : List Expr}
    {binds : List (VarId × Expr)} {body : Expr}
    (hfinished : ∀ d n, ¬ Computes (env.bindAll binds) stack (.visit body) (.ok (.deferred d)) n)
    {outcome : Except Fault Value} {m : Nat} :
    Computes env stack (.visit (.applyLambdas binds body)) outcome m ↔
      ∃ n, m = n + 2 * binds.length ∧
        Computes (env.bindAll binds) stack (.visit body) outcome n := by
  have hforth : ∀ o n, Computes (env.bindAll binds) stack (.visit body) o n →
      Computes env stack (.visit (.applyLambdas binds body)) o (n + 2 * binds.length) := by
    intro o n h
    refine h.applyLambdas fun d hd => ?_
    exact hfinished d n (hd ▸ h)
  constructor
  · intro h
    obtain ⟨o, n, -, hbody⟩ := h.body_of_applyLambdas
    obtain ⟨rfl, rfl⟩ := h.unique (hforth o n hbody)
    exact ⟨n, rfl, hbody⟩
  · intro h
    rcases h with ⟨n, rfl, hbody⟩
    exact hforth outcome n hbody

/-- The machine on lambdas that are applied to their arguments: it does what it does on the body,
unless that gives a deferred value. -/
theorem Call.machine_run_applyLambdas {env : Env} {stack : List Expr}
    {binds : List (VarId × Expr)} {body : Expr} {budget : Nat}
    (hfinished : ∀ d left, Machine.run budget (.visit body (env.bindAll binds) stack []) ≠
      some (.ok (.deferred d), left)) :
    Machine.run (budget + 2 * binds.length)
        (.visit (.applyLambdas binds body) env stack []) =
      Machine.run budget (.visit body (env.bindAll binds) stack []) := by
  refine @machine_run_add (.evalExpr (.applyLambdas binds body) env stack)
    (.evalExpr body (env.bindAll binds) stack) budget (2 * binds.length) ?_ ?_
  · intro o n hn h
    refine Computes.applyLambdas h fun d hd => ?_
    refine hfinished d (budget - n) ?_
    rw [← hd]
    exact machine_run_eq_some_iff.2 ⟨n, Nat.sub_add_cancel hn, h⟩
  · intro o m h
    exact Computes.body_of_applyLambdas h

/-- **Arguments are bound in order, unevaluated, and cost two visits each.**  Let lambdas over a
body be applied to as many arguments, and let the parameters be bound to the arguments one after
the other.

* A variable is then bound to the argument of the last parameter with its name, as it stands,
  and to what it was bound to before if there is no such parameter.
* On a budget with two visits more for each argument, the applications come to what the body
  comes to on the budget, and with as much left, unless that is a deferred value.
* An evaluator answers the applications as it answers the body, unless it does that with a deferred
  value: with the same error or scalar and the same count, or not at all, if it starts them two
  visits lower for each argument, and those visits are within the limit. -/
theorem arguments_bind_in_order (binds : List (VarId × Expr)) (body : Expr) (env : Env)
    (stack : List Expr) :
    (∀ x, (env.bindAll binds).get? x =
      ((binds.reverse.find? (·.1 == x)).map fun b => Value.deferred b.2).or (env.get? x)) ∧
    (∀ budget, (∀ d left, Machine.run budget (.visit body (env.bindAll binds) stack []) ≠
        some (.ok (.deferred d), left)) →
      Machine.run (budget + 2 * binds.length)
          (.visit (.applyLambdas binds body) env stack []) =
        Machine.run budget (.visit body (env.bindAll binds) stack [])) ∧
    (∀ (limits : Limits) (gas : UInt64),
      gas.toNat + 2 * binds.length ≤ limits.gasLimit.toNat →
      (∀ d ev, Evaluator.evalExpr ⟨limits, gas + .ofNat (2 * binds.length)⟩ body
          (env.bindAll binds) stack ≠ some (.ok (.deferred d), ev)) →
      Evaluator.evalExpr ⟨limits, gas⟩ (.applyLambdas binds body) env stack =
        Evaluator.evalExpr ⟨limits, gas + .ofNat (2 * binds.length)⟩ body (env.bindAll binds)
          stack) := by
  refine ⟨env.get?_bindAll_eq_find? binds, fun _ => Call.machine_run_applyLambdas, ?_⟩
  intro limits gas hlimit hfinished
  let ev : Evaluator := ⟨limits, gas⟩
  let k := 2 * binds.length
  have hopen : ev.gasUsed ≤ ev.limits.gasLimit :=
    UInt64.le_iff_toNat_le.2 (Nat.le_of_add_right_le hlimit)
  have hallowed : ev.Allows k := (Evaluator.allows_iff hopen).2 (.inl hlimit)
  refine @Call.run_eq_run_spend (.evalExpr (.applyLambdas binds body) env stack)
    (.evalExpr body (env.bindAll binds) stack) ev k hallowed ?_ ?_
  · intro o n hn h
    refine Computes.applyLambdas h fun d hd => ?_
    subst hd
    exact hfinished d _ (Call.run_of_allowed h hn)
  · intro o m h
    exact Computes.body_of_applyLambdas h

/-- Three arguments, one of which has no value, for two parameters of one name and one between. -/
def repeatedBinds : List (VarId × Expr) :=
  [(⟨1⟩, .literal (.int 1)), (⟨2⟩, .var ⟨9⟩), (⟨1⟩, .literal (.int 5))]

/-- A body that pops an argument of its own, and subtracts it from a parameter. -/
def lessNext : Expr := .lambda ⟨3⟩ (.binary .sub (.var ⟨1⟩) (.var ⟨3⟩))

/-- The later of two parameters of one name is read, the argument without a value is not
evaluated, and the argument that waits for the applications is popped by the body: the answer is
the difference of five and nine.  With a limit that is met on the way, both are exhausted. -/
theorem arguments_bind_in_order_repeated :
    (Env.empty.bindAll repeatedBinds).get? ⟨1⟩ = some (.deferred (.literal (.int 5))) ∧
      Machine.run 9 (.visit lessNext (Env.empty.bindAll repeatedBinds) [.literal (.int 9)] []) =
        some (.ok (.scalar (.int (-4))), 3) ∧
      Machine.run (9 + 6) (.visit (.applyLambdas repeatedBinds lessNext) .empty
        [.literal (.int 9)] []) = some (.ok (.scalar (.int (-4))), 3) ∧
      Evaluator.evalExpr ⟨⟨20⟩, 3⟩ (.applyLambdas repeatedBinds lessNext) .empty
        [.literal (.int 9)] = some (.ok (.scalar (.int (-4))), ⟨⟨20⟩, 15⟩) ∧
      Evaluator.evalExpr ⟨⟨12⟩, 3⟩ (.applyLambdas repeatedBinds lessNext) .empty
        [.literal (.int 9)] = some (.error .gasExhausted, ⟨⟨12⟩, 13⟩) := by
  have hbudget : Machine.run 9 (.visit lessNext (Env.empty.bindAll repeatedBinds)
      [.literal (.int 9)] []) = some (.ok (.scalar (.int (-4))), 3) := by rfl
  have hbody : Evaluator.evalExpr ⟨⟨20⟩, 3 + .ofNat (2 * repeatedBinds.length)⟩ lessNext
      (Env.empty.bindAll repeatedBinds) [.literal (.int 9)] =
        some (.ok (.scalar (.int (-4))), ⟨⟨20⟩, 15⟩) :=
    .trans (Evaluator.run_of_ends (n := 6) (by decide) rfl) rfl
  have hcut : Evaluator.evalExpr ⟨⟨12⟩, 3 + .ofNat (2 * repeatedBinds.length)⟩ lessNext
      (Env.empty.bindAll repeatedBinds) [.literal (.int 9)] =
        some (.error .gasExhausted, ⟨⟨12⟩, 13⟩) :=
    Evaluator.run_of_cut (n := 3) (by decide) (by decide) rfl
  obtain ⟨hbound, hmachine, hsame⟩ :=
    arguments_bind_in_order repeatedBinds lessNext .empty [.literal (.int 9)]
  refine ⟨hbound ⟨1⟩, hbudget, ?_, ?_, ?_⟩
  · exact (hmachine 9 (by rw [hbudget]; simp)).trans hbudget
  · exact (hsame ⟨20⟩ 3 (by decide) (by rw [hbody]; simp)).trans hbody
  · exact (hsame ⟨12⟩ 3 (by decide) (by rw [hcut]; simp)).trans hcut

end WireLambda
