import WireLambda.Eval.Machine

/-!
# What evaluation means

`Computes env stack task outcome n` says, without a machine and without a limit, that a
`task` in an environment and with arguments waiting comes to an outcome, and that `n`
nodes are visited on the way.  There are three tasks: to visit a node, to finish a value,
and to visit a node and finish what it gives.

The rules are those of the language.

* Operands are finished from left to right, each of them in the environment and with the
  arguments of the operator, and both of them before the operator is applied.
* An application visits its function with the argument pushed, and finishes the result
  where the application stands, without the argument.
* A lambda binds the top argument, unevaluated, and visits its body with the others.
* A variable bound to a lambda is visited as that lambda, where the variable stands.
* A conditional finishes its condition and visits one branch.

The first task that fails gives the fault of the whole.  `run_eq_of_computes` says that the
machine follows these rules, and `computes_or_exhausted` that it does nothing else: what
it has not worked out with a budget costs more than the budget.
-/

namespace WireLambda

/-- Something to be evaluated. -/
inductive Task where
  | visit (e : Expr)
  | force (v : Value)
  /-- Visits a node, and forces what it gives. -/
  | finish (e : Expr)

/-- The outcome of a task and the number of nodes visited. -/
inductive Computes : Env → List Expr → Task → Except Fault Value → Nat → Prop where
  | literal {env stack s} : Computes env stack (.visit (.literal s)) (.ok (.scalar s)) 1
  | unbound {env stack x} (h : env.get? x = none) :
      Computes env stack (.visit (.var x)) (.error (.unboundVariable x)) 1
  | bound {env stack x v} (h : env.get? x = some v)
      (hv : ∀ y body, v ≠ .deferred (.lambda y body)) :
      Computes env stack (.visit (.var x)) (.ok v) 1
  | boundLambda {env stack x y body outcome n}
      (h : env.get? x = some (.deferred (.lambda y body)))
      (hl : Computes env stack (.visit (.lambda y body)) outcome n) :
      Computes env stack (.visit (.var x)) outcome (n + 1)
  | unary {env stack op e a n} (he : Computes env stack (.finish e) (.ok (.scalar a)) n) :
      Computes env stack (.visit (.unary op e)) ((op.eval a).map .scalar) (n + 1)
  | unaryFault {env stack op e fault n} (he : Computes env stack (.finish e) (.error fault) n) :
      Computes env stack (.visit (.unary op e)) (.error fault) (n + 1)
  | binary {env stack op l r a b n m} (hop : op ≠ .apply)
      (hl : Computes env stack (.finish l) (.ok (.scalar a)) n)
      (hr : Computes env stack (.finish r) (.ok (.scalar b)) m) :
      Computes env stack (.visit (.binary op l r)) ((op.eval a b).map .scalar) (n + m + 1)
  | leftFault {env stack op l r fault n} (hop : op ≠ .apply)
      (hl : Computes env stack (.finish l) (.error fault) n) :
      Computes env stack (.visit (.binary op l r)) (.error fault) (n + 1)
  | rightFault {env stack op l r a fault n m} (hop : op ≠ .apply)
      (hl : Computes env stack (.finish l) (.ok (.scalar a)) n)
      (hr : Computes env stack (.finish r) (.error fault) m) :
      Computes env stack (.visit (.binary op l r)) (.error fault) (n + m + 1)
  | apply {env stack f a v outcome n m}
      (hf : Computes env (a :: stack) (.visit f) (.ok v) n)
      (hv : Computes env stack (.force v) outcome m) :
      Computes env stack (.visit (.apply f a)) outcome (n + m + 1)
  | applyFault {env stack f a fault n}
      (hf : Computes env (a :: stack) (.visit f) (.error fault) n) :
      Computes env stack (.visit (.apply f a)) (.error fault) (n + 1)
  | underflow {env x body} :
      Computes env [] (.visit (.lambda x body)) (.error (.stackUnderflow x)) 1
  | lambda {env a stack x body outcome n}
      (hb : Computes (env.bind x (.deferred a)) stack (.visit body) outcome n) :
      Computes env (a :: stack) (.visit (.lambda x body)) outcome (n + 1)
  | thenBranch {env stack c t e outcome n m}
      (hc : Computes env stack (.finish c) (.ok (.scalar (.bool true))) n)
      (ht : Computes env stack (.visit t) outcome m) :
      Computes env stack (.visit (.ite c t e)) outcome (n + m + 1)
  | elseBranch {env stack c t e outcome n m}
      (hc : Computes env stack (.finish c) (.ok (.scalar (.bool false))) n)
      (he : Computes env stack (.visit e) outcome m) :
      Computes env stack (.visit (.ite c t e)) outcome (n + m + 1)
  | conditionMismatch {env stack c t e a n} (ha : ∀ b, a ≠ .bool b)
      (hc : Computes env stack (.finish c) (.ok (.scalar a)) n) :
      Computes env stack (.visit (.ite c t e)) (.error (.conditionMismatch a.kind)) (n + 1)
  | conditionFault {env stack c t e fault n}
      (hc : Computes env stack (.finish c) (.error fault) n) :
      Computes env stack (.visit (.ite c t e)) (.error fault) (n + 1)
  | forceScalar {env stack s} :
      Computes env stack (.force (.scalar s)) (.ok (.scalar s)) 0
  | forceDeferred {env stack e outcome n} (h : Computes env stack (.finish e) outcome n) :
      Computes env stack (.force (.deferred e)) outcome n
  | finish {env stack e v outcome n m} (he : Computes env stack (.visit e) (.ok v) n)
      (hv : Computes env stack (.force v) outcome m) :
      Computes env stack (.finish e) outcome (n + m)
  | finishFault {env stack e fault n} (he : Computes env stack (.visit e) (.error fault) n) :
      Computes env stack (.finish e) (.error fault) n

/-- A task that finishes a value never comes to a deferred one. -/
theorem Computes.ne_deferred {env : Env} {stack : List Expr} {task : Task}
    {outcome : Except Fault Value} {n : Nat} (h : Computes env stack task outcome n)
    (htask : ∀ e, task ≠ .visit e) (e : Expr) : outcome ≠ .ok (.deferred e) := by
  induction h with
  | forceScalar => simp
  | forceDeferred h ih => exact ih (by simp)
  | finish he hv ihe ihv => exact ihv (by simp)
  | finishFault he ih => simp
  | _ => exact absurd rfl (htask _)

/-- A value that is finished, or a fault, is not changed by finishing it. -/
theorem Computes.finish_of_visit {env : Env} {stack : List Expr} {e : Expr}
    {value : Except Fault Scalar} {n : Nat}
    (h : Computes env stack (.visit e) (value.map .scalar) n) :
    Computes env stack (.finish e) (value.map .scalar) n := by
  cases value with
  | ok a =>
    have hfinish : Computes env stack (.finish e) (.ok (.scalar a)) (n + 0) :=
      .finish h .forceScalar
    exact hfinish
  | error fault => exact .finishFault h

namespace Task

/-- The machine at work on a task.  To finish a value takes a frame that wants one. -/
def Starts (env : Env) (stack : List Expr) (frames : List Frame) : Task → Next → Prop
  | visit e, next => next = .visit e env stack frames
  | force v, next =>
      ∃ use outer, frames = ⟨env, stack, use⟩ :: outer ∧ next = Machine.give v frames
  | finish e, next =>
      ∃ use outer, frames = ⟨env, stack, use⟩ :: outer ∧ next = .visit e env stack frames

end Task

namespace Machine

/-- What the machine does once a task has come to an outcome. -/
def resume (frames : List Frame) : Except Fault Value → Next
  | .ok v => give v frames
  | .error fault => .halt (.error fault)

@[simp] theorem resume_ok (frames : List Frame) (v : Value) :
    resume frames (.ok v) = give v frames := rfl

@[simp] theorem resume_error (frames : List Frame) (fault : Fault) :
    resume frames (.error fault) = .halt (.error fault) := rfl

@[simp] theorem give_nil (v : Value) : give v [] = .halt (.ok v) := rfl

@[simp] theorem give_deferred (e : Expr) (f : Frame) (fs : List Frame) :
    give (.deferred e) (f :: fs) = .visit e f.env f.stack (f :: fs) := rfl

@[simp] theorem give_result (s : Scalar) (env : Env) (stack : List Expr) (fs : List Frame) :
    give (.scalar s) (⟨env, stack, .result⟩ :: fs) = give (.scalar s) fs := rfl

theorem give_unary (s : Scalar) (env : Env) (stack : List Expr) (op : UnaryOp)
    (fs : List Frame) :
    give (.scalar s) (⟨env, stack, .unary op⟩ :: fs) =
      resume fs ((op.eval s).map .scalar) := by
  simp only [give]
  cases op.eval s <;> rfl

@[simp] theorem give_left (s : Scalar) (env : Env) (stack : List Expr) (op : BinaryOp)
    (r : Expr) (fs : List Frame) :
    give (.scalar s) (⟨env, stack, .left op r⟩ :: fs) =
      .visit r env stack (⟨env, stack, .right op s⟩ :: fs) := rfl

theorem give_right (s : Scalar) (env : Env) (stack : List Expr) (op : BinaryOp)
    (l : Scalar) (fs : List Frame) :
    give (.scalar s) (⟨env, stack, .right op l⟩ :: fs) =
      resume fs ((op.eval l s).map .scalar) := by
  simp only [give]
  cases op.eval l s <;> rfl

@[simp] theorem give_branch_true (env : Env) (stack : List Expr) (t e : Expr)
    (fs : List Frame) :
    give (.scalar (.bool true)) (⟨env, stack, .branch t e⟩ :: fs) =
      .visit t env stack fs := rfl

@[simp] theorem give_branch_false (env : Env) (stack : List Expr) (t e : Expr)
    (fs : List Frame) :
    give (.scalar (.bool false)) (⟨env, stack, .branch t e⟩ :: fs) =
      .visit e env stack fs := rfl

theorem give_branch_mismatch {s : Scalar} (h : ∀ b, s ≠ .bool b) (env : Env)
    (stack : List Expr) (t e : Expr) (fs : List Frame) :
    give (.scalar s) (⟨env, stack, .branch t e⟩ :: fs) =
      .halt (.error (.conditionMismatch s.kind)) := by
  cases s with
  | bool b => exact absurd rfl (h b)
  | int n => rfl
  | str s => rfl

theorem visit_var_unbound {env : Env} {x : VarId} (h : env.get? x = none)
    (stack : List Expr) (fs : List Frame) :
    visit (.var x) env stack fs = .halt (.error (.unboundVariable x)) := by
  simp only [visit, h]

theorem visit_var_lambda {env : Env} {x y : VarId} {body : Expr}
    (h : env.get? x = some (.deferred (.lambda y body))) (stack : List Expr)
    (fs : List Frame) :
    visit (.var x) env stack fs = .visit (.lambda y body) env stack fs := by
  simp only [visit, h, visitBound]

theorem visit_var_value {env : Env} {x : VarId} {v : Value} (h : env.get? x = some v)
    (hv : ∀ y body, v ≠ .deferred (.lambda y body)) (stack : List Expr)
    (fs : List Frame) :
    visit (.var x) env stack fs = give v fs := by
  simp only [visit, h]
  cases v with
  | scalar s => rfl
  | deferred e =>
    cases e with
    | lambda y body => exact absurd rfl (hv y body)
    | _ => rfl

theorem visit_binary {op : BinaryOp} (h : op ≠ .apply) (l r : Expr) (env : Env)
    (stack : List Expr) (fs : List Frame) :
    visit (.binary op l r) env stack fs =
      .visit l env stack (⟨env, stack, .left op r⟩ :: fs) := by
  rw [visit, if_neg h]

@[simp] theorem visit_apply (f a : Expr) (env : Env) (stack : List Expr)
    (fs : List Frame) :
    visit (.apply f a) env stack fs =
      .visit f env (a :: stack) (⟨env, stack, .result⟩ :: fs) := rfl

/-! ## The machine follows the rules -/

/-- A task that comes to an outcome with `n` visits does so on the machine, whatever else
is left to do, if the budget allows `n` visits. -/
theorem run_eq_of_computes {env : Env} {stack : List Expr} {task : Task}
    {outcome : Except Fault Value} {n : Nat} (h : Computes env stack task outcome n) :
    ∀ (frames : List Frame) (next : Next), task.Starts env stack frames next →
      ∀ left, run (left + n) next = run left (resume frames outcome) := by
  induction h with
  | literal => rintro frames next rfl left; rfl
  | unbound h =>
    rintro frames next rfl left
    rw [run_succ_visit, visit_var_unbound h, resume_error]
  | bound h hv =>
    rintro frames next rfl left
    rw [run_succ_visit, visit_var_value h hv, resume_ok]
  | boundLambda h hl ih =>
    rintro frames next rfl left
    rw [← Nat.add_assoc, run_succ_visit, visit_var_lambda h, ih frames _ rfl]
  | unary he ih =>
    rintro frames next rfl left
    rw [← Nat.add_assoc, run_succ_visit, visit, ih _ _ ⟨_, _, rfl, rfl⟩, resume_ok,
      give_unary]
  | unaryFault he ih =>
    rintro frames next rfl left
    rw [← Nat.add_assoc, run_succ_visit, visit, ih _ _ ⟨_, _, rfl, rfl⟩]; rfl
  | @binary env stack op l r a b n m hop hl hr ihl ihr =>
    rintro frames next rfl left
    rw [show left + (n + m + 1) = left + m + n + 1 by omega, run_succ_visit,
      visit_binary hop, ihl _ _ ⟨_, _, rfl, rfl⟩, resume_ok, give_left,
      ihr _ _ ⟨_, _, rfl, rfl⟩, resume_ok, give_right]
  | leftFault hop hl ih =>
    rintro frames next rfl left
    rw [← Nat.add_assoc, run_succ_visit, visit_binary hop, ih _ _ ⟨_, _, rfl, rfl⟩]; rfl
  | @rightFault env stack op l r a fault n m hop hl hr ihl ihr =>
    rintro frames next rfl left
    rw [show left + (n + m + 1) = left + m + n + 1 by omega, run_succ_visit,
      visit_binary hop, ihl _ _ ⟨_, _, rfl, rfl⟩, resume_ok, give_left,
      ihr _ _ ⟨_, _, rfl, rfl⟩]; rfl
  | @apply env stack f a v outcome n m hf hv ihf ihv =>
    rintro frames next rfl left
    rw [show left + (n + m + 1) = left + m + n + 1 by omega, run_succ_visit, visit_apply,
      ihf _ _ rfl, resume_ok, ihv _ _ ⟨_, _, rfl, rfl⟩]
    cases outcome with
    | error fault => rfl
    | ok w =>
      cases w with
      | scalar s => rfl
      | deferred e => exact absurd rfl (hv.ne_deferred (by simp) e)
  | applyFault hf ih =>
    rintro frames next rfl left
    rw [← Nat.add_assoc, run_succ_visit, visit_apply, ih _ _ rfl]; rfl
  | underflow => rintro frames next rfl left; rfl
  | lambda hb ih =>
    rintro frames next rfl left
    rw [← Nat.add_assoc, run_succ_visit, visit, ih _ _ rfl]
  | @thenBranch env stack c t e outcome n m hc ht ihc iht =>
    rintro frames next rfl left
    rw [show left + (n + m + 1) = left + m + n + 1 by omega, run_succ_visit, visit,
      ihc _ _ ⟨_, _, rfl, rfl⟩, resume_ok, give_branch_true, iht _ _ rfl]
  | @elseBranch env stack c t e outcome n m hc he ihc ihe =>
    rintro frames next rfl left
    rw [show left + (n + m + 1) = left + m + n + 1 by omega, run_succ_visit, visit,
      ihc _ _ ⟨_, _, rfl, rfl⟩, resume_ok, give_branch_false, ihe _ _ rfl]
  | conditionMismatch ha hc ih =>
    rintro frames next rfl left
    rw [← Nat.add_assoc, run_succ_visit, visit, ih _ _ ⟨_, _, rfl, rfl⟩, resume_ok,
      give_branch_mismatch ha]; rfl
  | conditionFault hc ih =>
    rintro frames next rfl left
    rw [← Nat.add_assoc, run_succ_visit, visit, ih _ _ ⟨_, _, rfl, rfl⟩]; rfl
  | forceScalar => rintro frames next ⟨use, outer, rfl, rfl⟩ left; rfl
  | forceDeferred h ih =>
    rintro frames next ⟨use, outer, rfl, rfl⟩ left
    rw [give_deferred, ih _ _ ⟨_, _, rfl, rfl⟩]
  | @finish env stack e v outcome n m he hv ihe ihv =>
    rintro frames next ⟨use, outer, rfl, rfl⟩ left
    rw [show left + (n + m) = left + m + n by omega, ihe _ _ rfl, resume_ok,
      ihv _ _ ⟨_, _, rfl, rfl⟩]
  | finishFault he ih =>
    rintro frames next ⟨use, outer, rfl, rfl⟩ left
    rw [ih _ _ rfl]

/-! ## The machine does nothing else -/

/-- Visiting a node costs at least the visit itself. -/
theorem one_le_of_computes_visit {env : Env} {stack : List Expr} {e : Expr}
    {outcome : Except Fault Value} {n : Nat}
    (h : Computes env stack (.visit e) outcome n) : 1 ≤ n := by
  cases h <;> omega

/-- With some budget, a task either comes to an outcome within the budget, or the machine
runs out of budget whatever else is left to do. -/
def Decided (budget : Nat) (env : Env) (stack : List Expr) (task : Task) : Prop :=
  (∃ outcome n, n ≤ budget ∧ Computes env stack task outcome n) ∨
    ∀ frames next, task.Starts env stack frames next → run budget next = none

theorem run_eq_of_computes_le {env : Env} {stack : List Expr} {task : Task}
    {outcome : Except Fault Value} {n budget : Nat} {frames : List Frame} {next : Next}
    (h : Computes env stack task outcome n) (hn : n ≤ budget)
    (hnext : task.Starts env stack frames next) :
    run budget next = run (budget - n) (resume frames outcome) := by
  have hrun := run_eq_of_computes h frames next hnext (budget - n)
  rwa [Nat.sub_add_cancel hn] at hrun

/-- Forcing costs as much as finishing what is forced. -/
theorem decided_force {budget : Nat} {env : Env} {stack : List Expr}
    (hfinish : ∀ e, Decided budget env stack (.finish e)) (v : Value) :
    Decided budget env stack (.force v) := by
  cases v with
  | scalar s => exact .inl ⟨_, 0, Nat.zero_le _, .forceScalar⟩
  | deferred e =>
    rcases hfinish e with ⟨o, n, hn, h⟩ | h
    · exact .inl ⟨o, n, hn, .forceDeferred h⟩
    · refine .inr ?_
      rintro frames next ⟨use, outer, rfl, rfl⟩
      exact h _ _ ⟨_, _, rfl, rfl⟩

/-- Finishing a node is visiting it, and then forcing with what is left. -/
theorem decided_finish {budget : Nat} {env : Env} {stack : List Expr} {e : Expr}
    (hvisit : Decided budget env stack (.visit e))
    (hless : ∀ left < budget, ∀ v, Decided left env stack (.force v)) :
    Decided budget env stack (.finish e) := by
  rcases hvisit with ⟨o, n, hn, h⟩ | h
  · have hpos := one_le_of_computes_visit h
    cases o with
    | error fault => exact .inl ⟨_, n, hn, .finishFault h⟩
    | ok v =>
      rcases hless (budget - n) (by omega) v with ⟨o, m, hm, hv⟩ | hv
      · exact .inl ⟨o, n + m, by omega, .finish h hv⟩
      · refine .inr ?_
        rintro frames next ⟨use, outer, rfl, rfl⟩
        rw [run_eq_of_computes_le h hn rfl, resume_ok]
        exact hv _ _ ⟨_, _, rfl, rfl⟩
  · refine .inr ?_
    rintro frames next ⟨use, outer, rfl, rfl⟩
    exact h _ _ rfl

/-- A visit that hands over to one other visit. -/
theorem decided_visit_of_visit {budget : Nat} {env env' : Env} {stack stack' : List Expr}
    {e e' : Expr} (hmachine : ∀ frames, visit e env stack frames = .visit e' env' stack' frames)
    (hrule : ∀ {o n}, Computes env' stack' (.visit e') o n →
      Computes env stack (.visit e) o (n + 1))
    (h : Decided budget env' stack' (.visit e')) :
    Decided (budget + 1) env stack (.visit e) := by
  rcases h with ⟨o, n, hn, h⟩ | h
  · exact .inl ⟨o, n + 1, by omega, hrule h⟩
  · refine .inr ?_
    rintro frames next rfl
    rw [run_succ_visit, hmachine]
    exact h _ _ rfl

/-- What a visit costs beyond itself is decided by less budget. -/
theorem decided_visit {budget : Nat}
    (hvisit : ∀ left ≤ budget, ∀ env stack e, Decided left env stack (.visit e))
    (hfinish : ∀ left ≤ budget, ∀ env stack e, Decided left env stack (.finish e))
    (env : Env) (stack : List Expr) (e : Expr) :
    Decided (budget + 1) env stack (.visit e) := by
  cases e with
  | literal s => exact .inl ⟨_, 1, by omega, .literal⟩
  | var x =>
    cases hx : env.get? x with
    | none => exact .inl ⟨_, 1, by omega, .unbound hx⟩
    | some v =>
      by_cases hv : ∃ y body, v = .deferred (.lambda y body)
      · obtain ⟨y, body, rfl⟩ := hv
        exact decided_visit_of_visit (fun fs => visit_var_lambda hx stack fs)
          (.boundLambda hx) (hvisit budget (Nat.le_refl _) env stack _)
      · exact .inl ⟨_, 1, by omega, .bound hx fun y body h => hv ⟨y, body, h⟩⟩
  | lambda x body =>
    cases stack with
    | nil => exact .inl ⟨_, 1, by omega, .underflow⟩
    | cons a stack =>
      exact decided_visit_of_visit (fun fs => rfl) .lambda
        (hvisit budget (Nat.le_refl _) _ stack body)
  | unary op e =>
    rcases hfinish budget (Nat.le_refl _) env stack e with ⟨o, n, hn, h⟩ | h
    · cases o with
      | error fault => exact .inl ⟨_, n + 1, by omega, .unaryFault h⟩
      | ok v =>
        cases v with
        | scalar s => exact .inl ⟨_, n + 1, by omega, .unary h⟩
        | deferred d => exact absurd rfl (h.ne_deferred (by simp) d)
    · refine .inr ?_
      rintro frames next rfl
      exact h _ _ ⟨_, _, rfl, rfl⟩
  | binary op l r =>
    by_cases hop : op = .apply
    · subst hop
      rcases hvisit budget (Nat.le_refl _) env (r :: stack) l with ⟨o, n, hn, h⟩ | h
      · cases o with
        | error fault => exact .inl ⟨_, n + 1, by omega, .applyFault h⟩
        | ok v =>
          have hforce := decided_force
            (hfinish (budget - n) (Nat.sub_le _ _) env stack) v
          rcases hforce with ⟨o, m, hm, hv⟩ | hv
          · exact .inl ⟨o, n + m + 1, by omega, .apply h hv⟩
          · refine .inr ?_
            rintro frames next rfl
            rw [run_succ_visit, visit_apply, run_eq_of_computes_le h hn rfl, resume_ok]
            exact hv _ _ ⟨_, _, rfl, rfl⟩
      · refine .inr ?_
        rintro frames next rfl
        exact h _ _ rfl
    · rcases hfinish budget (Nat.le_refl _) env stack l with ⟨o, n, hn, h⟩ | h
      · cases o with
        | error fault => exact .inl ⟨_, n + 1, by omega, .leftFault hop h⟩
        | ok v =>
          cases v with
          | deferred d => exact absurd rfl (h.ne_deferred (by simp) d)
          | scalar a =>
            rcases hfinish (budget - n) (Nat.sub_le _ _) env stack r with ⟨o, m, hm, hr⟩ | hr
            · cases o with
              | error fault => exact .inl ⟨_, n + m + 1, by omega, .rightFault hop h hr⟩
              | ok w =>
                cases w with
                | scalar b => exact .inl ⟨_, n + m + 1, by omega, .binary hop h hr⟩
                | deferred d => exact absurd rfl (hr.ne_deferred (by simp) d)
            · refine .inr ?_
              rintro frames next rfl
              rw [run_succ_visit, visit_binary hop,
                run_eq_of_computes_le h hn ⟨_, _, rfl, rfl⟩, resume_ok, give_left]
              exact hr _ _ ⟨_, _, rfl, rfl⟩
      · refine .inr ?_
        rintro frames next rfl
        rw [run_succ_visit, visit_binary hop]
        exact h _ _ ⟨_, _, rfl, rfl⟩
  | ite c t e =>
    rcases hfinish budget (Nat.le_refl _) env stack c with ⟨o, n, hn, h⟩ | h
    · cases o with
      | error fault => exact .inl ⟨_, n + 1, by omega, .conditionFault h⟩
      | ok v =>
        cases v with
        | deferred d => exact absurd rfl (h.ne_deferred (by simp) d)
        | scalar a =>
          by_cases ha : ∃ b, a = .bool b
          · obtain ⟨b, rfl⟩ := ha
            cases b with
            | true =>
              rcases hvisit (budget - n) (Nat.sub_le _ _) env stack t with ⟨o, m, hm, ht⟩ | ht
              · exact .inl ⟨o, n + m + 1, by omega, .thenBranch h ht⟩
              · refine .inr ?_
                rintro frames next rfl
                rw [run_succ_visit, visit, run_eq_of_computes_le h hn ⟨_, _, rfl, rfl⟩,
                  resume_ok, give_branch_true]
                exact ht _ _ rfl
            | false =>
              rcases hvisit (budget - n) (Nat.sub_le _ _) env stack e with ⟨o, m, hm, he⟩ | he
              · exact .inl ⟨o, n + m + 1, by omega, .elseBranch h he⟩
              · refine .inr ?_
                rintro frames next rfl
                rw [run_succ_visit, visit, run_eq_of_computes_le h hn ⟨_, _, rfl, rfl⟩,
                  resume_ok, give_branch_false]
                exact he _ _ rfl
          · exact .inl ⟨_, n + 1, by omega,
              .conditionMismatch (fun b hb => ha ⟨b, hb⟩) h⟩
    · refine .inr ?_
      rintro frames next rfl
      exact h _ _ ⟨_, _, rfl, rfl⟩

/-- Whatever the budget, a task comes to an outcome by the rules within the budget, or the
machine runs out of it. -/
theorem computes_or_exhausted (budget : Nat) (env : Env) (stack : List Expr) (task : Task) :
    Decided budget env stack task := by
  suffices h : ∀ env stack, (∀ e, Decided budget env stack (.visit e)) ∧
      ∀ e, Decided budget env stack (.finish e) by
    cases task with
    | visit e => exact (h env stack).1 e
    | finish e => exact (h env stack).2 e
    | force v => exact decided_force (h env stack).2 v
  induction budget using Nat.strongRecOn with
  | ind budget ih =>
    have hvisit : ∀ env stack e, Decided budget env stack (.visit e) := by
      intro env stack e
      cases budget with
      | zero =>
        refine .inr ?_
        rintro frames next rfl
        exact run_zero_visit ..
      | succ b =>
        exact decided_visit
          (fun left hleft env stack e => (ih left (Nat.lt_succ_of_le hleft) env stack).1 e)
          (fun left hleft env stack e => (ih left (Nat.lt_succ_of_le hleft) env stack).2 e)
          env stack e
    intro env stack
    exact ⟨hvisit env stack, fun e => decided_finish (hvisit env stack e)
      fun left hleft v => decided_force (ih left hleft env stack).2 v⟩

end Machine

end WireLambda
