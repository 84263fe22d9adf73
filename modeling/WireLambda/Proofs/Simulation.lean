import Mathlib.Data.List.Forall2
import WireLambda.Proofs.Calls
import WireLambda.Proofs.Weakening

/-!
# Trees that differ in constants

A constant is an expression that gives the same scalar wherever it is visited, in as many
visits.  Constants of the same value can stand for each other: whoever visits one gets the
value, and whoever passes one on without visiting it, as an argument or as a deferred value,
passes on something that can stand for the other one.

`Expr.Alike k` relates two trees that are the same up to constants, where a constant of the
second tree costs at most `k` times as much as the one in its place in the first.  The
relation is carried over to values, environments and tasks, and `Computes.simulate` says that
the second of two tasks that are alike comes to an outcome like that of the first, at no more
than `k` times the cost.

The induction is on the derivation for the first task.  In each case of a visit there are two
possibilities: the nodes are of one kind, and the parts are alike in turn; or the nodes are
constants and need have nothing in common, but then the derivation can only be the one that
makes the first of them a constant (`follows_of_constant`).
-/

namespace WireLambda

/-! ## Constants -/

/-- An expression that gives a scalar wherever it is visited, in the same number of visits. -/
def Expr.Constant (e : Expr) (s : Scalar) (n : Nat) : Prop :=
  ∀ env stack, Computes env stack (.visit e) (.ok (.scalar s)) n

theorem Expr.constant_literal (s : Scalar) : (Expr.literal s).Constant s 1 :=
  fun _ _ => .literal

/-- What gives a scalar with nothing bound and nothing waiting gives it everywhere. -/
theorem Expr.constant_of_computes {e : Expr} {s : Scalar} {n : Nat}
    (h : Computes .empty [] (.visit e) (.ok (.scalar s)) n) : e.Constant s n :=
  fun env stack => h.weaken (not_missed_ok _) env.empty_extends stack

/-- A lambda is not a constant: it wants an argument. -/
theorem Expr.not_constant_lambda {x : VarId} {body : Expr} {s : Scalar} {n : Nat} :
    ¬ (Expr.lambda x body).Constant s n := by
  intro h
  cases h .empty []

/-! ## The relation -/

/-- Two trees that are the same up to constants, those of the second costing at most `k`
times as much. -/
inductive Expr.Alike (k : Nat) : Expr → Expr → Prop where
  | constant {e e' s n m} (h : e.Constant s n) (h' : e'.Constant s m) (hcost : m ≤ k * n) :
      Alike k e e'
  | literal (s) : Alike k (.literal s) (.literal s)
  | var (x) : Alike k (.var x) (.var x)
  | unary {op e e'} (he : Alike k e e') : Alike k (.unary op e) (.unary op e')
  | binary {op l l' r r'} (hl : Alike k l l') (hr : Alike k r r') :
      Alike k (.binary op l r) (.binary op l' r')
  | lambda {x body body'} (hb : Alike k body body') :
      Alike k (.lambda x body) (.lambda x body')
  | ite {c c' t t' e e'} (hc : Alike k c c') (ht : Alike k t t') (he : Alike k e e') :
      Alike k (.ite c t e) (.ite c' t' e')

/-- The relation on values. -/
inductive Value.Alike (k : Nat) : Value → Value → Prop where
  | scalar (s) : Alike k (.scalar s) (.scalar s)
  | deferred {e e'} (he : e.Alike k e') : Alike k (.deferred e) (.deferred e')

/-- The relation on outcomes: faults are the same. -/
inductive OutcomeAlike (k : Nat) : Except Fault Value → Except Fault Value → Prop where
  | ok {v v'} (hv : v.Alike k v') : OutcomeAlike k (.ok v) (.ok v')
  | error (fault) : OutcomeAlike k (.error fault) (.error fault)

/-- The relation on environments: the same variables are bound, to values that are alike. -/
def Env.Alike (k : Nat) (env env' : Env) : Prop :=
  ∀ x, Option.Rel (Value.Alike k) (env.get? x) (env'.get? x)

/-- The relation on tasks. -/
inductive Task.Alike (k : Nat) : Task → Task → Prop where
  | visit {e e'} (he : e.Alike k e') : Alike k (.visit e) (.visit e')
  | force {v v'} (hv : v.Alike k v') : Alike k (.force v) (.force v')
  | finish {e e'} (he : e.Alike k e') : Alike k (.finish e) (.finish e')

variable {k : Nat}

theorem Expr.Alike.refl (e : Expr) : e.Alike k e := by
  induction e with
  | literal s => exact .literal s
  | var x => exact .var x
  | unary op e ih => exact .unary ih
  | binary op l r ihl ihr => exact .binary ihl ihr
  | lambda x body ih => exact .lambda ih
  | ite c t e ihc iht ihe => exact .ite ihc iht ihe

/-- What is like a lambda is a lambda. -/
theorem Expr.Alike.exists_of_lambda {x : VarId} {body e' : Expr}
    (h : (Expr.lambda x body).Alike k e') :
    ∃ body', e' = .lambda x body' ∧ body.Alike k body' := by
  cases h with
  | constant h h' hcost => exact absurd h not_constant_lambda
  | lambda hb => exact ⟨_, rfl, hb⟩

theorem Expr.Alike.exists_of_lambda_right {x : VarId} {body' e : Expr}
    (h : e.Alike k (.lambda x body')) : ∃ body, e = .lambda x body := by
  cases h with
  | constant h h' hcost => exact absurd h' not_constant_lambda
  | lambda hb => exact ⟨_, rfl⟩

/-- A value like one that is not a deferred lambda is not a deferred lambda either. -/
theorem Value.Alike.ne_lambda {v v' : Value} (h : v.Alike k v')
    (hv : ∀ x body, v ≠ .deferred (.lambda x body)) (x : VarId) (body : Expr) :
    v' ≠ .deferred (.lambda x body) := by
  rintro rfl
  cases h with
  | deferred he =>
    obtain ⟨body', rfl⟩ := he.exists_of_lambda_right
    exact hv x body' rfl

theorem Env.alike_empty : Env.Alike k .empty .empty := fun _ => .none

/-- Binding a variable to values that are alike keeps environments alike. -/
theorem Env.Alike.bind {env env' : Env} (h : env.Alike k env') (x : VarId) {v v' : Value}
    (hv : v.Alike k v') : (env.bind x v).Alike k (env'.bind x v') := by
  intro y
  rw [get?_bind, get?_bind]
  split
  · exact .some hv
  · exact h y

/-- A variable is bound in both of two environments that are alike, or in neither. -/
theorem Env.Alike.exists_of_get? {env env' : Env} (h : env.Alike k env') {x : VarId}
    {v : Value} (hx : env.get? x = some v) : ∃ v', env'.get? x = some v' ∧ v.Alike k v' := by
  have hrel := h x
  rw [hx] at hrel
  cases hget : env'.get? x with
  | none => rw [hget] at hrel; cases hrel
  | some v' =>
    rw [hget] at hrel
    cases hrel with
    | some hv => exact ⟨v', rfl, hv⟩

theorem Env.Alike.get?_eq_none {env env' : Env} (h : env.Alike k env') {x : VarId}
    (hx : env.get? x = none) : env'.get? x = none := by
  have hrel := h x
  rw [hx] at hrel
  cases hget : env'.get? x with
  | none => rfl
  | some v' => rw [hget] at hrel; cases hrel

/-- What an operator computes is like itself. -/
theorem OutcomeAlike.operator (o : Except Fault Scalar) :
    OutcomeAlike k (o.map .scalar) (o.map .scalar) := by
  cases o with
  | ok s => exact .ok (.scalar s)
  | error fault => exact .error fault

/-- A finished outcome is like itself only. -/
theorem OutcomeAlike.eq_of_ne_deferred {o o' : Except Fault Value} (h : OutcomeAlike k o o')
    (ho : ∀ e, o ≠ .ok (.deferred e)) : o' = o := by
  cases h with
  | error fault => rfl
  | ok hv =>
    cases hv with
    | scalar s => rfl
    | @deferred e e' he => exact absurd rfl (ho e)

/-! ## Costs -/

theorem cost_add {m m' n n' : Nat} (h : m ≤ k * n) (h' : m' ≤ k * n') :
    m + m' ≤ k * (n + n') := by
  rw [Nat.mul_add]
  exact Nat.add_le_add h h'

theorem cost_succ {m n : Nat} (hk : 1 ≤ k) (h : m ≤ k * n) : m + 1 ≤ k * (n + 1) :=
  cost_add h (by rwa [Nat.mul_one])

/-! ## The simulation -/

/-- A task comes to an outcome like the given one, at no more than `k` times the cost. -/
def Follows (k : Nat) (env : Env) (stack : List Expr) (task : Task)
    (o : Except Fault Value) (n : Nat) : Prop :=
  ∃ o' m, Computes env stack task o' m ∧ OutcomeAlike k o o' ∧ m ≤ k * n

section Follows

variable {env : Env} {stack : List Expr} {task : Task} {n : Nat}

theorem Follows.exists_of_fault {fault : Fault}
    (h : Follows k env stack task (.error fault) n) :
    ∃ m, Computes env stack task (.error fault) m ∧ m ≤ k * n := by
  obtain ⟨o', m, hm, ho, hcost⟩ := h
  obtain rfl := ho.eq_of_ne_deferred (by simp)
  exact ⟨m, hm, hcost⟩

theorem Follows.exists_of_scalar {s : Scalar}
    (h : Follows k env stack task (.ok (.scalar s)) n) :
    ∃ m, Computes env stack task (.ok (.scalar s)) m ∧ m ≤ k * n := by
  obtain ⟨o', m, hm, ho, hcost⟩ := h
  obtain rfl := ho.eq_of_ne_deferred (by simp)
  exact ⟨m, hm, hcost⟩

theorem Follows.exists_of_ok {v : Value} (h : Follows k env stack task (.ok v) n) :
    ∃ v' m, Computes env stack task (.ok v') m ∧ v.Alike k v' ∧ m ≤ k * n := by
  obtain ⟨o', m, hm, ho, hcost⟩ := h
  cases ho with
  | ok hv => exact ⟨_, m, hm, hv, hcost⟩

/-- A visit of a constant is followed by the visit of the other one, wherever that is made. -/
theorem follows_of_constant {env' : Env} {stack' : List Expr} {e e' : Expr}
    {o : Except Fault Value} {s : Scalar} {i j : Nat}
    (h : Computes env' stack' (.visit e) o n) (hc : e.Constant s i) (hc' : e'.Constant s j)
    (hcost : j ≤ k * i) : Follows k env stack (.visit e') o n := by
  obtain ⟨rfl, rfl⟩ := h.unique (hc env' stack')
  exact ⟨_, j, hc' env stack, .ok (.scalar s), hcost⟩

end Follows

/-- **Simulation.**  The second of two tasks that are alike comes to an outcome like that of
the first, and costs no more than `k` times as much. -/
theorem Computes.simulate (hk : 1 ≤ k) {env env' : Env} {stack stack' : List Expr}
    {task task' : Task} {o : Except Fault Value} {n : Nat}
    (h : Computes env stack task o n) (henv : env.Alike k env')
    (hstack : List.Forall₂ (Expr.Alike k) stack stack') (htask : task.Alike k task') :
    Follows k env' stack' task' o n := by
  have hone : 1 ≤ k * 1 := by rwa [Nat.mul_one]
  -- in each visit: two constants, whose parts need not be alike, or two nodes of one kind
  induction h generalizing env' stack' task' with
  | @literal env stack s =>
    cases htask with
    | visit he =>
      cases he with
      | constant hc hc' hcost =>
        exact follows_of_constant (@Computes.literal env stack s) hc hc' hcost
      | literal => exact ⟨_, 1, .literal, .ok (.scalar s), hone⟩
  | @unbound env stack x h =>
    cases htask with
    | visit he =>
      cases he with
      | constant hc hc' hcost =>
        exact follows_of_constant (@Computes.unbound env stack x h) hc hc' hcost
      | var => exact ⟨_, 1, .unbound (henv.get?_eq_none h), .error _, hone⟩
  | @bound env stack x v h hv =>
    cases htask with
    | visit he =>
      cases he with
      | constant hc hc' hcost =>
        exact follows_of_constant (@Computes.bound env stack x v h hv) hc hc' hcost
      | var =>
        obtain ⟨v', h', hvv'⟩ := henv.exists_of_get? h
        exact ⟨_, 1, .bound h' (hvv'.ne_lambda hv), .ok hvv', hone⟩
  | boundLambda h hl ih =>
    cases htask with
    | visit he =>
      cases he with
      | constant hc hc' hcost => exact follows_of_constant (.boundLambda h hl) hc hc' hcost
      | var =>
        -- the other environment holds a lambda as well, since a lambda is not a constant
        obtain ⟨v', h', hvv'⟩ := henv.exists_of_get? h
        cases hvv' with
        | deferred he =>
          obtain ⟨body', rfl, hb⟩ := he.exists_of_lambda
          obtain ⟨o', m, hm, ho, hcost⟩ := ih henv hstack (.visit (.lambda hb))
          exact ⟨o', m + 1, .boundLambda h' hm, ho, cost_succ hk hcost⟩
  | unary he ih =>
    cases htask with
    | visit he' =>
      cases he' with
      | constant hc hc' hcost => exact follows_of_constant (.unary he) hc hc' hcost
      | unary hd =>
        obtain ⟨m, hm, hcost⟩ := (ih henv hstack (.finish hd)).exists_of_scalar
        exact ⟨_, m + 1, .unary hm, .operator _, cost_succ hk hcost⟩
  | unaryFault he ih =>
    cases htask with
    | visit he' =>
      cases he' with
      | constant hc hc' hcost => exact follows_of_constant (.unaryFault he) hc hc' hcost
      | unary hd =>
        obtain ⟨m, hm, hcost⟩ := (ih henv hstack (.finish hd)).exists_of_fault
        exact ⟨_, m + 1, .unaryFault hm, .error _, cost_succ hk hcost⟩
  | binary hop hl hr ihl ihr =>
    cases htask with
    | visit he =>
      cases he with
      | constant hc hc' hcost => exact follows_of_constant (.binary hop hl hr) hc hc' hcost
      | binary hl' hr' =>
        obtain ⟨i, hi, hicost⟩ := (ihl henv hstack (.finish hl')).exists_of_scalar
        obtain ⟨j, hj, hjcost⟩ := (ihr henv hstack (.finish hr')).exists_of_scalar
        exact ⟨_, i + j + 1, .binary hop hi hj, .operator _,
          cost_succ hk (cost_add hicost hjcost)⟩
  | leftFault hop hl ih =>
    cases htask with
    | visit he =>
      cases he with
      | constant hc hc' hcost => exact follows_of_constant (.leftFault hop hl) hc hc' hcost
      | binary hl' hr' =>
        obtain ⟨i, hi, hicost⟩ := (ih henv hstack (.finish hl')).exists_of_fault
        exact ⟨_, i + 1, .leftFault hop hi, .error _, cost_succ hk hicost⟩
  | rightFault hop hl hr ihl ihr =>
    cases htask with
    | visit he =>
      cases he with
      | constant hc hc' hcost => exact follows_of_constant (.rightFault hop hl hr) hc hc' hcost
      | binary hl' hr' =>
        obtain ⟨i, hi, hicost⟩ := (ihl henv hstack (.finish hl')).exists_of_scalar
        obtain ⟨j, hj, hjcost⟩ := (ihr henv hstack (.finish hr')).exists_of_fault
        exact ⟨_, i + j + 1, .rightFault hop hi hj, .error _,
          cost_succ hk (cost_add hicost hjcost)⟩
  | apply hf hv ihf ihv =>
    cases htask with
    | visit he =>
      cases he with
      | constant hc hc' hcost => exact follows_of_constant (.apply hf hv) hc hc' hcost
      | binary hf' ha' =>
        obtain ⟨v', i, hi, hvv', hicost⟩ :=
          (ihf henv (.cons ha' hstack) (.visit hf')).exists_of_ok
        obtain ⟨o', j, hj, ho, hjcost⟩ := ihv henv hstack (.force hvv')
        exact ⟨o', i + j + 1, .apply hi hj, ho, cost_succ hk (cost_add hicost hjcost)⟩
  | applyFault hf ih =>
    cases htask with
    | visit he =>
      cases he with
      | constant hc hc' hcost => exact follows_of_constant (.applyFault hf) hc hc' hcost
      | binary hf' ha' =>
        obtain ⟨i, hi, hicost⟩ := (ih henv (.cons ha' hstack) (.visit hf')).exists_of_fault
        exact ⟨_, i + 1, .applyFault hi, .error _, cost_succ hk hicost⟩
  | underflow =>
    cases htask with
    | visit he =>
      obtain ⟨body', rfl, -⟩ := he.exists_of_lambda
      cases hstack with
      | nil => exact ⟨_, 1, .underflow, .error _, hone⟩
  | lambda hb ih =>
    cases htask with
    | visit he =>
      obtain ⟨body', rfl, hb'⟩ := he.exists_of_lambda
      cases hstack with
      | cons ha hstack =>
        obtain ⟨o', m, hm, ho, hcost⟩ := ih (henv.bind _ (.deferred ha)) hstack (.visit hb')
        exact ⟨o', m + 1, .lambda hm, ho, cost_succ hk hcost⟩
  | thenBranch hc ht ihc iht =>
    cases htask with
    | visit he =>
      cases he with
      | constant hconst hconst' hcost =>
        exact follows_of_constant (.thenBranch hc ht) hconst hconst' hcost
      | ite hc' ht' he' =>
        obtain ⟨i, hi, hicost⟩ := (ihc henv hstack (.finish hc')).exists_of_scalar
        obtain ⟨o', j, hj, ho, hjcost⟩ := iht henv hstack (.visit ht')
        exact ⟨o', i + j + 1, .thenBranch hi hj, ho, cost_succ hk (cost_add hicost hjcost)⟩
  | elseBranch hc he ihc ihe =>
    cases htask with
    | visit hite =>
      cases hite with
      | constant hconst hconst' hcost =>
        exact follows_of_constant (.elseBranch hc he) hconst hconst' hcost
      | ite hc' ht' he' =>
        obtain ⟨i, hi, hicost⟩ := (ihc henv hstack (.finish hc')).exists_of_scalar
        obtain ⟨o', j, hj, ho, hjcost⟩ := ihe henv hstack (.visit he')
        exact ⟨o', i + j + 1, .elseBranch hi hj, ho, cost_succ hk (cost_add hicost hjcost)⟩
  | conditionMismatch ha hc ih =>
    cases htask with
    | visit he =>
      cases he with
      | constant hconst hconst' hcost =>
        exact follows_of_constant (.conditionMismatch ha hc) hconst hconst' hcost
      | ite hc' ht' he' =>
        obtain ⟨i, hi, hicost⟩ := (ih henv hstack (.finish hc')).exists_of_scalar
        exact ⟨_, i + 1, .conditionMismatch ha hi, .error _, cost_succ hk hicost⟩
  | conditionFault hc ih =>
    cases htask with
    | visit he =>
      cases he with
      | constant hconst hconst' hcost =>
        exact follows_of_constant (.conditionFault hc) hconst hconst' hcost
      | ite hc' ht' he' =>
        obtain ⟨i, hi, hicost⟩ := (ih henv hstack (.finish hc')).exists_of_fault
        exact ⟨_, i + 1, .conditionFault hi, .error _, cost_succ hk hicost⟩
  | forceScalar =>
    cases htask with
    | force hv =>
      cases hv with
      | scalar => exact ⟨_, 0, .forceScalar, .ok (.scalar _), Nat.zero_le _⟩
  | forceDeferred h ih =>
    cases htask with
    | force hv =>
      cases hv with
      | deferred he =>
        obtain ⟨o', m, hm, ho, hcost⟩ := ih henv hstack (.finish he)
        exact ⟨o', m, .forceDeferred hm, ho, hcost⟩
  | finish he hv ihe ihv =>
    cases htask with
    | finish he' =>
      obtain ⟨v', i, hi, hvv', hicost⟩ := (ihe henv hstack (.visit he')).exists_of_ok
      obtain ⟨o', j, hj, ho, hjcost⟩ := ihv henv hstack (.force hvv')
      exact ⟨o', i + j, .finish hi hj, ho, cost_add hicost hjcost⟩
  | finishFault he ih =>
    cases htask with
    | finish he' =>
      obtain ⟨i, hi, hicost⟩ := (ih henv hstack (.visit he')).exists_of_fault
      exact ⟨_, i, .finishFault hi, .error _, hicost⟩

end WireLambda
