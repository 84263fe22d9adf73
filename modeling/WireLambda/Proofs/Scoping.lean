import WireLambda.Expr.Scope
import WireLambda.Proofs.Metering
import WireLambda.Proofs.Provenance

/-!
# Closed programs never miss a variable

An argument is evaluated where it is read, and not where it was written, and the variables
in it are looked up there.  It is therefore not obvious that a program without free
variables never looks up one that is unbound.

It is true because environments only grow on the way from where an argument is written to
where it is read.  The invariant is that an environment covers, which is to bind all free
variables of, whatever is evaluated in it and whatever is pending in it.  A lambda binds one
more variable and adds nothing that is pending.  An application is the critical case: what
its function gives is finished in the environment of the application, when the bindings of
the function are gone.  But that is an expression that was pending before these bindings
were made (`Computes.pending_of_deferred`), and so it was covered without them.
-/

namespace WireLambda

namespace Env

/-- An environment binds all free variables of an expression. -/
def Covers (env : Env) (e : Expr) : Prop := ∀ x ∈ e.free, env.contains x = true

instance (env : Env) : DecidablePred env.Covers :=
  fun e => inferInstanceAs (Decidable (∀ x ∈ e.free, env.contains x = true))

theorem covers_of_closed {e : Expr} (h : e.Closed) (env : Env) : env.Covers e := by
  intro x hx
  rw [h] at hx
  exact absurd hx List.not_mem_nil

theorem covers_binary_iff {env : Env} {op : BinaryOp} {l r : Expr} :
    env.Covers (.binary op l r) ↔ env.Covers l ∧ env.Covers r := by
  simp only [Covers, Expr.free, List.mem_append, or_imp, forall_and]

theorem covers_ite_iff {env : Env} {c t e : Expr} :
    env.Covers (.ite c t e) ↔ env.Covers c ∧ env.Covers t ∧ env.Covers e := by
  simp only [Covers, Expr.free, List.mem_append, or_imp, forall_and, and_assoc]

/-- A variable that was bound still is when another one is bound. -/
theorem contains_bind_of_contains {env : Env} {y : VarId} (h : env.contains y = true)
    (x : VarId) (v : Value) : (env.bind x v).contains y = true := by
  rw [contains, get?_bind]
  split
  · rfl
  · exact h

theorem Covers.bind {env : Env} {e : Expr} (h : env.Covers e) (x : VarId) (v : Value) :
    (env.bind x v).Covers e :=
  fun y hy => contains_bind_of_contains (h y hy) x v

/-- The body of a lambda is covered once the parameter is bound. -/
theorem Covers.body {env : Env} {x : VarId} {body : Expr} (h : env.Covers (.lambda x body))
    (v : Value) : (env.bind x v).Covers body := by
  intro y hy
  by_cases hyx : y = x
  · rw [contains, hyx, get?_bind_self]
    rfl
  · refine contains_bind_of_contains (h y ?_) x v
    exact List.mem_filter.2 ⟨hy, by simpa using hyx⟩

/-- An environment covers whatever is pending in it. -/
def CoversPending (env : Env) (stack : List Expr) : Prop :=
  ∀ d, Pending env stack d → env.Covers d

theorem CoversPending.push {env : Env} {stack : List Expr} {a : Expr}
    (h : env.CoversPending stack) (ha : env.Covers a) : env.CoversPending (a :: stack) := by
  intro d hd
  rcases pending_cons_iff.1 hd with rfl | hd
  · exact ha
  · exact h d hd

theorem CoversPending.bind {env : Env} {stack : List Expr} {a : Expr}
    (h : env.CoversPending (a :: stack)) (x : VarId) :
    (env.bind x (.deferred a)).CoversPending stack :=
  fun d hd => (h d hd.of_bind).bind x _

end Env

/-- An environment covers what a task evaluates. -/
def Task.CoveredBy (env : Env) : Task → Prop
  | visit e | finish e | force (.deferred e) => env.Covers e
  | force (.scalar _) => True

/-- What a visit gives may be forced in its environment. -/
theorem Computes.coveredBy_force {env : Env} {stack : List Expr} {e : Expr} {v : Value}
    {n : Nat} (h : Computes env stack (.visit e) (.ok v) n)
    (hpending : env.CoversPending stack) : Task.CoveredBy env (.force v) := by
  cases v with
  | scalar s => trivial
  | deferred d => exact hpending d (h.pending_of_deferred rfl)

/-- **Scoping.**  Where the environment covers what is evaluated and what is pending, no
variable is missed. -/
theorem Computes.ne_unboundVariable {env : Env} {stack : List Expr} {task : Task}
    {outcome : Except Fault Value} {n : Nat} (h : Computes env stack task outcome n)
    (htask : task.CoveredBy env) (hpending : env.CoversPending stack) (x : VarId) :
    outcome ≠ .error (.unboundVariable x) := by
  induction h with
  | literal | bound | underflow | conditionMismatch | forceScalar => simp
  | @unbound env stack y h =>
    have hy := htask y List.mem_cons_self
    rw [Env.contains, h] at hy
    exact absurd hy (by simp)
  | boundLambda h hl ih => exact ih (hpending _ (.inr ⟨_, h⟩)) hpending
  | unary he ih =>
    intro hx
    rcases UnaryOp.eval_eq_error (map_eq_error_iff.1 hx) with h | ⟨e, h⟩ <;> cases h
  | unaryFault he ih => exact ih htask hpending
  | binary hop hl hr ihl ihr =>
    intro hx
    rcases BinaryOp.eval_eq_error (map_eq_error_iff.1 hx) with h | h <;> cases h
  | leftFault hop hl ih => exact ih (Env.covers_binary_iff.1 htask).1 hpending
  | rightFault hop hl hr ihl ihr => exact ihr (Env.covers_binary_iff.1 htask).2 hpending
  | apply hf hv ihf ihv =>
    obtain ⟨-, ha⟩ := Env.covers_binary_iff.1 htask
    exact ihv (hf.coveredBy_force (hpending.push ha)) hpending
  | applyFault hf ih =>
    obtain ⟨hf, ha⟩ := Env.covers_binary_iff.1 htask
    exact ih hf (hpending.push ha)
  | lambda hb ih => exact ih (htask.body _) (hpending.bind _)
  | thenBranch hc ht ihc iht => exact iht (Env.covers_ite_iff.1 htask).2.1 hpending
  | elseBranch hc he ihc ihe => exact ihe (Env.covers_ite_iff.1 htask).2.2 hpending
  | conditionFault hc ih => exact ih (Env.covers_ite_iff.1 htask).1 hpending
  | forceDeferred h ih => exact ih htask hpending
  | finish he hv ihe ihv => exact ihv (he.coveredBy_force hpending) hpending
  | finishFault he ih => exact ih htask hpending

/-! ## The main result -/

/-- **Closed programs never miss a variable.**  The evaluation of a program in which every
variable stands below a lambda of its own does not fail on an unbound variable, whatever the
limit.  Nor does that of a node whose free variables, and those of all arguments that wait
and of all expressions that are bound, are bound in its environment. -/
theorem closed_never_unbound (ev : Evaluator) :
    (∀ e : Expr, e.Closed → ∀ x ev',
      ev.evaluate e ≠ some (.error (.fault (.unboundVariable x)), ev')) ∧
    (∀ (e : Expr) (env : Env) (stack : List Expr), env.Covers e →
      (∀ a ∈ stack, env.Covers a) →
      (∀ y d, env.get? y = some (.deferred d) → env.Covers d) →
      ∀ x ev', ev.evalExpr e env stack ≠ some (.error (.fault (.unboundVariable x)), ev')) := by
  constructor
  · intro e hclosed x ev'
    refine Call.run_ne_fault (c := .evaluate e) (fun n hn => ?_) ev'
    refine Computes.ne_unboundVariable hn (Env.covers_of_closed hclosed _) ?_ x rfl
    exact fun d hd => absurd hd (not_pending_empty d)
  · intro e env stack he hstack henv x ev'
    refine Call.run_ne_fault (c := .evalExpr e env stack) (fun n hn => ?_) ev'
    refine Computes.ne_unboundVariable hn he ?_ x rfl
    rintro d (hd | ⟨y, hd⟩)
    · exact hstack d hd
    · exact henv y d hd

/-- A function that returns its argument, applied to a variable of the function around it: the
variable is returned and looked up when the binding of the inner function is gone. -/
def returnedVariable : Expr :=
  .apply (.lambda ⟨1⟩ (.apply (.lambda ⟨2⟩ (.var ⟨2⟩)) (.var ⟨1⟩))) (.literal (.int 7))

/-- The returned variable is found, and so is one that stands in a place by itself, where it
is bound and also waits as an argument. -/
theorem closed_never_unbound_returned :
    returnedVariable.Closed ∧
      (∀ ev, (Evaluator.new .default).evaluate returnedVariable ≠
        some (.error (.fault (.unboundVariable ⟨1⟩)), ev)) ∧
      (∀ ev, (Evaluator.new .default).evalExpr (.var ⟨1⟩)
          (Env.empty.bind ⟨1⟩ (.deferred (.literal (.int 7)))) [.var ⟨1⟩] ≠
        some (.error (.fault (.unboundVariable ⟨1⟩)), ev)) := by
  have hclosed : returnedVariable.Closed := by decide
  obtain ⟨hprogram, hnode⟩ := closed_never_unbound (.new .default)
  refine ⟨hclosed, hprogram _ hclosed _, hnode _ _ _ (by decide) (by decide) ?_ _⟩
  intro y d hd
  rw [Env.get?_bind] at hd
  split at hd
  · obtain rfl := Value.deferred.inj (Option.some.inj hd)
    decide
  · exact absurd hd (by simp)

end WireLambda
