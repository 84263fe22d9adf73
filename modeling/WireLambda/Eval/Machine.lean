import WireLambda.Eval.Env
import WireLambda.Eval.Operators

/-!
# The machine

Evaluation is call by name.  A node is visited in an environment and with a stack of
arguments that wait, unevaluated, for the lambdas to come: an application pushes its
argument and visits its function, and a lambda takes the top argument and binds it.
There are no closures.  A variable bound to a lambda is that lambda, in the environment
and with the arguments of the place where the variable stands.

The work that is left over when a node is visited is a list of `Frame`s, innermost first.
A frame wants a finished value: if it is given a deferred one, it first has that evaluated
in its own environment and with its own arguments.

* `give` hands a value to the frames and follows what they do with it until another node
  has to be visited, or nothing is left to do.
* `visit` does what one node asks for.
* `run` alternates the two.  Visiting a node costs one unit of a budget, and `run` gives
  up when there is none left, so it recurses on the budget and always ends.

Frames live in a list and not in the call stack, so a deeply nested program needs no deep
recursion.
-/

namespace WireLambda

/-- What a frame does with a finished value. -/
inductive Use where
  /-- Hands it on: the value of an application is finished where the application stands. -/
  | result
  | unary (op : UnaryOp)
  /-- The value is the left operand; the right one is still to be evaluated. -/
  | left (op : BinaryOp) (r : Expr)
  /-- The value is the right operand. -/
  | right (op : BinaryOp) (l : Scalar)
  /-- The value is a condition. -/
  | branch (t e : Expr)
  deriving DecidableEq

/-- Work left over: what to do with a value, and where. -/
structure Frame where
  env : Env
  stack : List Expr
  use : Use
  deriving DecidableEq

/-- What the machine does next. -/
inductive Next where
  /-- Nothing is left to do. -/
  | halt (outcome : Except Fault Value)
  /-- Visits a node and gives its value to the frames. -/
  | visit (e : Expr) (env : Env) (stack : List Expr) (frames : List Frame)

namespace Machine

/-- Hands a value to the frames. -/
def give (v : Value) : List Frame → Next
  | [] => .halt (.ok v)
  | f :: fs =>
      match v with
      | .deferred e => .visit e f.env f.stack (f :: fs)
      | .scalar s =>
          match f.use with
          | .result => give (.scalar s) fs
          | .unary op =>
              match op.eval s with
              | .ok a => give (.scalar a) fs
              | .error fault => .halt (.error fault)
          | .left op r => .visit r f.env f.stack (⟨f.env, f.stack, .right op s⟩ :: fs)
          | .right op l =>
              match op.eval l s with
              | .ok a => give (.scalar a) fs
              | .error fault => .halt (.error fault)
          | .branch t e =>
              match s with
              | .bool true => .visit t f.env f.stack fs
              | .bool false => .visit e f.env f.stack fs
              | other => .halt (.error (.conditionMismatch other.kind))

/-- Visits a variable that is bound to `v`. -/
def visitBound (v : Value) (env : Env) (stack : List Expr) (frames : List Frame) : Next :=
  match v with
  | .deferred (.lambda x body) => .visit (.lambda x body) env stack frames
  | v => give v frames

/-- Visits one node. -/
def visit (e : Expr) (env : Env) (stack : List Expr) (frames : List Frame) : Next :=
  match e with
  | .literal s => give (.scalar s) frames
  | .var x =>
      match env.get? x with
      | none => .halt (.error (.unboundVariable x))
      | some v => visitBound v env stack frames
  | .unary op e => .visit e env stack (⟨env, stack, .unary op⟩ :: frames)
  | .binary op l r =>
      if op = .apply then .visit l env (r :: stack) (⟨env, stack, .result⟩ :: frames)
      else .visit l env stack (⟨env, stack, .left op r⟩ :: frames)
  | .lambda x body =>
      match stack with
      | [] => .halt (.error (.stackUnderflow x))
      | arg :: rest => .visit body (env.bind x (.deferred arg)) rest frames
  | .ite c t e => .visit c env stack (⟨env, stack, .branch t e⟩ :: frames)

/-- Runs the machine, visiting at most `budget` nodes.  Gives the outcome and what is left
of the budget, or nothing if the budget does not suffice. -/
def run : Nat → Next → Option (Except Fault Value × Nat)
  | budget, .halt outcome => some (outcome, budget)
  | 0, .visit _ _ _ _ => none
  | budget + 1, .visit e env stack frames => run budget (visit e env stack frames)

@[simp] theorem run_halt (budget : Nat) (outcome : Except Fault Value) :
    run budget (.halt outcome) = some (outcome, budget) := by
  cases budget <;> rfl

@[simp] theorem run_zero_visit (e : Expr) (env : Env) (stack : List Expr)
    (frames : List Frame) : run 0 (.visit e env stack frames) = none := rfl

@[simp] theorem run_succ_visit (budget : Nat) (e : Expr) (env : Env) (stack : List Expr)
    (frames : List Frame) :
    run (budget + 1) (.visit e env stack frames) =
      run budget (visit e env stack frames) := rfl

/-- What is left of a budget is part of it. -/
theorem left_le_of_run {budget left : Nat} {next : Next} {outcome : Except Fault Value}
    (h : run budget next = some (outcome, left)) : left ≤ budget := by
  induction budget generalizing next with
  | zero =>
    cases next with
    | halt o => simp only [run_halt, Option.some.injEq, Prod.mk.injEq] at h; omega
    | visit e env stack frames => exact absurd h (by simp)
  | succ budget ih =>
    cases next with
    | halt o => simp only [run_halt, Option.some.injEq, Prod.mk.injEq] at h; omega
    | visit e env stack frames => exact Nat.le_succ_of_le (ih h)

/-- A budget that a run leaves nothing of, and what is left over of a larger one. -/
theorem run_add_iff {n left : Nat} {next : Next} {outcome : Except Fault Value} :
    run (n + left) next = some (outcome, left) ↔ run n next = some (outcome, 0) := by
  induction n generalizing next with
  | zero =>
    cases next with
    | halt o => simp
    | visit e env stack frames =>
      refine iff_of_false (fun h => ?_) (by simp)
      -- one visit is paid for, so less would be left
      cases left with
      | zero => cases h
      | succ left =>
        rw [Nat.zero_add, run_succ_visit] at h
        have hle := left_le_of_run h
        omega
  | succ n ih =>
    cases next with
    | halt o => simp
    | visit e env stack frames =>
      rw [Nat.add_right_comm]
      exact ih

/-- What a run has spent would have been enough. -/
theorem exists_exact_of_run {budget left : Nat} {next : Next} {outcome : Except Fault Value}
    (h : run budget next = some (outcome, left)) :
    ∃ n, n + left = budget ∧ run n next = some (outcome, 0) := by
  have hle := Nat.sub_add_cancel (left_le_of_run h)
  exact ⟨budget - left, hle, run_add_iff.1 (hle.symm ▸ h)⟩

end Machine

end WireLambda
