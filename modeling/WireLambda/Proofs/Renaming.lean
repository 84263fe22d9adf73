import Mathlib.Data.List.Nodup
import Mathlib.Logic.Embedding.Basic
import WireLambda.Proofs.Calls

/-!
# Names of variables

Evaluation compares names of variables and does nothing else with them.  So it does not matter
which names a program uses, as long as different variables keep different names: with every name
replaced, in the program, in the environment and in the waiting arguments, an evaluation goes the
same way, at the same cost, and what it comes to is the old outcome with the names replaced.

It is all names that are replaced, bound ones and free ones alike, and not those of one lambda.
Scoping is dynamic: an argument reads its variables where it is evaluated, below lambdas that it
was never written below, so to rename one lambda alone can change what a program computes.

A renaming is an embedding of the names into themselves.  That it keeps names apart is what an
environment needs to be renamed (`Env.rename`), and what makes a later binding replace an earlier
one exactly if it did before (`Env.rename_bind`).  Renaming then commutes with handing over a
value (`Machine.give_rename`), with a visit (`Machine.visit_rename`) and with a run on any budget
(`Machine.run_rename`).

The main result is `evaluation_respects_renaming`.
-/

namespace WireLambda

variable (σ : VarId ↪ VarId)

/-! ## What is renamed -/

/-- The expression with every name replaced, of variables and of parameters. -/
def Expr.rename : Expr → Expr
  | literal s => literal s
  | var x => var (σ x)
  | unary op e => unary op e.rename
  | binary op l r => binary op l.rename r.rename
  | lambda x body => lambda (σ x) body.rename
  | ite c t e => ite c.rename t.rename e.rename

/-- A finished value has no names in it. -/
def Value.rename : Value → Value
  | scalar s => scalar s
  | deferred e => deferred (e.rename σ)

/-- The environment with its variables and all that they are bound to renamed. -/
def Env.rename (env : Env) : Env where
  bindings := env.bindings.map (Prod.map σ (Value.rename σ))
  distinct := by
    have hnames : (env.bindings.map (Prod.map σ (Value.rename σ))).map Prod.fst =
        (env.bindings.map Prod.fst).map σ := by
      rw [List.map_map, List.map_map]
      rfl
    rw [hnames]
    exact List.Nodup.map σ.injective env.distinct

/-- Two faults name a variable. -/
def Fault.rename : Fault → Fault
  | unboundVariable x => unboundVariable (σ x)
  | stackUnderflow x => stackUnderflow (σ x)
  | fault => fault

/-- That the gas is exhausted names no variable. -/
def EvalError.rename : EvalError → EvalError
  | fault f => fault (f.rename σ)
  | gasExhausted => gasExhausted

/-- What a frame is to do, with the names replaced in the operands that still wait. -/
def Use.rename : Use → Use
  | left op r => left op (r.rename σ)
  | branch t e => branch (t.rename σ) (e.rename σ)
  | use => use

/-- A frame with its place and its work renamed. -/
def Frame.rename (f : Frame) : Frame :=
  ⟨f.env.rename σ, f.stack.map (Expr.rename σ), f.use.rename σ⟩

/-- An outcome with the names replaced, in a deferred value or in a fault. -/
def Machine.renameOutcome : Except Fault Value → Except Fault Value
  | .ok v => .ok (v.rename σ)
  | .error fault => .error (fault.rename σ)

/-- An answer with the names replaced. -/
def Evaluator.renameAnswer : Except EvalError Value → Except EvalError Value
  | .ok v => .ok (v.rename σ)
  | .error e => .error (e.rename σ)

/-- What the machine does next, with the names replaced. -/
def Next.rename : Next → Next
  | halt outcome => halt (Machine.renameOutcome σ outcome)
  | visit e env stack frames =>
      visit (e.rename σ) (env.rename σ) (stack.map (Expr.rename σ))
        (frames.map (Frame.rename σ))

/-- The same use of an evaluator, with the names replaced. -/
def Call.rename : Call → Call
  | evalExpr e env stack =>
      evalExpr (e.rename σ) (env.rename σ) (stack.map (Expr.rename σ))
  | force v env stack => force (v.rename σ) (env.rename σ) (stack.map (Expr.rename σ))
  | evaluate e => evaluate (e.rename σ)

/-! ## Environments -/

namespace Env

/-- A variable is bound under its new name, to the value with the names replaced. -/
theorem get?_rename (env : Env) (x : VarId) :
    (env.rename σ).get? (σ x) = (env.get? x).map (Value.rename σ) := by
  have hsame : (fun b : VarId × Value => (Prod.map σ (Value.rename σ) b).1 == σ x) =
      fun b => b.1 == x := by
    funext b
    exact decide_eq_decide.2 σ.injective.eq_iff
  rw [get?, get?, rename, List.find?_map, Option.map_map, Option.map_map]
  show ((env.bindings.find? fun b => (Prod.map σ (Value.rename σ) b).1 == σ x).map _) = _
  rw [hsame]
  rfl

/-- What replaced an earlier binding still does, and what left it alone still does. -/
theorem rename_bind (env : Env) (x : VarId) (v : Value) :
    (env.bind x v).rename σ = (env.rename σ).bind (σ x) (v.rename σ) := by
  have hother : (fun b : VarId × Value => (Prod.map σ (Value.rename σ) b).1 != σ x) =
      fun b => b.1 != x := by
    funext b
    exact congrArg not (decide_eq_decide.2 σ.injective.eq_iff)
  have hrest : (env.bindings.filter (·.1 != x)).map (Prod.map σ (Value.rename σ)) =
      (env.bindings.map (Prod.map σ (Value.rename σ))).filter (·.1 != σ x) := by
    rw [List.filter_map]
    exact congrArg (fun p => (env.bindings.filter p).map _) hother.symm
  simp only [rename, bind, List.map_cons, hrest]
  rfl

end Env

/-! ## Machines -/

namespace Machine

theorem renameOutcome_map_scalar (outcome : Except Fault Scalar)
    (h : ∀ fault, outcome = .error fault → fault.rename σ = fault) :
    renameOutcome σ (outcome.map .scalar) = outcome.map .scalar := by
  cases outcome with
  | ok s => rfl
  | error fault => exact congrArg Except.error (h fault rfl)

/-- What a unary operator answers holds no names. -/
theorem renameOutcome_unary (op : UnaryOp) (s : Scalar) :
    renameOutcome σ ((op.eval s).map .scalar) = (op.eval s).map .scalar := by
  refine renameOutcome_map_scalar σ _ fun fault h => ?_
  rcases UnaryOp.eval_eq_error h with rfl | ⟨e, rfl⟩ <;> rfl

/-- What a binary operator answers holds no names. -/
theorem renameOutcome_binary (op : BinaryOp) (a b : Scalar) :
    renameOutcome σ ((op.eval a b).map .scalar) = (op.eval a b).map .scalar := by
  refine renameOutcome_map_scalar σ _ fun fault h => ?_
  rcases BinaryOp.eval_eq_error h with rfl | rfl <;> rfl

/-- A value that is handed to renamed work goes the same way.  The induction is on the frames: an
operator hands its result to the ones that are left. -/
theorem give_rename (v : Value) (frames : List Frame) :
    give (v.rename σ) (frames.map (Frame.rename σ)) = (give v frames).rename σ := by
  induction frames generalizing v with
  | nil => rfl
  | cons f frames ih =>
    have hresume : ∀ outcome : Except Fault Value, renameOutcome σ outcome = outcome →
        resume (frames.map (Frame.rename σ)) outcome = (resume frames outcome).rename σ := by
      intro outcome hsame
      cases outcome with
      | ok w =>
        rw [resume_ok, resume_ok, ← ih]
        rw [show w.rename σ = w from Except.ok.inj hsame]
      | error fault => exact congrArg Next.halt hsame.symm
    obtain ⟨env, stack, use⟩ := f
    cases v with
    | deferred e => rfl
    | scalar s =>
      cases use with
      | result => exact ih (.scalar s)
      | unary op =>
        have hop := renameOutcome_unary σ op s
        rw [give_unary, ← hresume _ hop]
        exact give_unary ..
      | left op r => rfl
      | right op l =>
        have hop := renameOutcome_binary σ op l s
        rw [give_right, ← hresume _ hop]
        exact give_right ..
      | branch t e =>
        cases s with
        | bool b => cases b <;> rfl
        | int n => rfl
        | str text => rfl

/-- **One visit** of a renamed node, in a renamed place, is the visit with the names replaced. -/
theorem visit_rename (e : Expr) (env : Env) (stack : List Expr) (frames : List Frame) :
    visit (e.rename σ) (env.rename σ) (stack.map (Expr.rename σ))
        (frames.map (Frame.rename σ)) =
      (visit e env stack frames).rename σ := by
  cases e with
  | literal s => exact give_rename σ (.scalar s) frames
  | var x =>
    have hget := Env.get?_rename σ env x
    cases hx : env.get? x with
    | none =>
      rw [hx] at hget
      rw [visit_var_unbound hx]
      exact visit_var_unbound hget ..
    | some v =>
      rw [hx] at hget
      by_cases hlambda : ∃ y body, v = .deferred (.lambda y body)
      · obtain ⟨y, body, rfl⟩ := hlambda
        rw [visit_var_lambda hx]
        exact visit_var_lambda hget ..
      · have hv : ∀ y body, v ≠ .deferred (.lambda y body) :=
          fun y body hv => hlambda ⟨y, body, hv⟩
        have hv' : ∀ y body, v.rename σ ≠ .deferred (.lambda y body) := by
          intro y body heq
          cases v with
          | scalar s => exact absurd heq (by simp [Value.rename])
          | deferred e =>
            cases e with
            | lambda z inner => exact hv z inner rfl
            | _ => exact absurd heq (by simp [Value.rename, Expr.rename])
        rw [visit_var_value hx hv, ← give_rename]
        exact visit_var_value hget hv' ..
  | unary op e => rfl
  | binary op l r =>
    by_cases hop : op = .apply
    · subst hop
      rfl
    · rw [visit_binary hop]
      exact visit_binary hop ..
  | lambda x body =>
    cases stack with
    | nil => rfl
    | cons a stack =>
      show Next.visit (body.rename σ) ((env.rename σ).bind (σ x) (.deferred (a.rename σ))) _ _ =
        Next.visit (body.rename σ) ((env.bind x (.deferred a)).rename σ) _ _
      rw [Env.rename_bind]
      rfl
  | ite c t e => rfl

/-- **A run** of a renamed machine, on the same budget, comes to the renamed outcome with as much
left, or runs out as well. -/
theorem run_rename (budget : Nat) (next : Next) :
    run budget (next.rename σ) = (run budget next).map (Prod.map (renameOutcome σ) id) := by
  induction budget generalizing next with
  | zero => cases next <;> rfl
  | succ budget ih =>
    cases next with
    | halt outcome => rfl
    | visit e env stack frames =>
      show run budget (visit (e.rename σ) (env.rename σ) (stack.map (Expr.rename σ))
        (frames.map (Frame.rename σ))) = _
      rw [visit_rename, ih, run_succ_visit]

end Machine

/-! ## Evaluators -/

theorem Evaluator.renameAnswer_mapError (outcome : Except Fault Value) :
    renameAnswer σ (outcome.mapError .fault) =
      (Machine.renameOutcome σ outcome).mapError .fault := by
  cases outcome <;> rfl

/-- An answer is a finished value exactly if the renamed answer is that value. -/
theorem Evaluator.renameAnswer_eq_scalar_iff {answer : Except EvalError Value} {s : Scalar} :
    renameAnswer σ answer = .ok (.scalar s) ↔ answer = .ok (.scalar s) := by
  cases answer with
  | error e => simp [renameAnswer]
  | ok v => cases v <;> simp [renameAnswer, Value.rename]

theorem Call.start_rename (c : Call) : (c.rename σ).start = c.start.rename σ := by
  cases c with
  | evalExpr e env stack => rfl
  | force v env stack => exact Machine.give_rename σ v [⟨env, stack, .result⟩]
  | evaluate e => rfl

/-- **An evaluator** gives a renamed machine the renamed answer, and has used the same gas; where it
gives no answer, it gives the renamed machine none. -/
theorem Evaluator.run_rename (ev : Evaluator) (next : Next) :
    ev.run (next.rename σ) = (ev.run next).map (Prod.map (renameAnswer σ) id) := by
  have hcourse := ev.course next
  generalize ev.run next = answer at hcourse ⊢
  rw [run_eq_iff]
  cases hcourse with
  | ends hallowed hrun =>
    rw [Option.map_some, Prod.map_apply, renameAnswer_mapError]
    exact .ends hallowed (by rw [Machine.run_rename, hrun]; rfl)
  | cut hallowed hrefused hrun =>
    exact .cut hallowed hrefused (by rw [Machine.run_rename, hrun]; rfl)
  | endless hallowed hrun =>
    exact .endless hallowed fun n => by rw [Machine.run_rename, hrun]; rfl

/-- A renamed call is answered by the renamed answer. -/
theorem Call.run_rename (c : Call) (ev : Evaluator) :
    (c.rename σ).run ev = (c.run ev).map (Prod.map (Evaluator.renameAnswer σ) id) := by
  rw [run_eq, run_eq, start_rename, Evaluator.run_rename]

/-! ## The main result -/

/-- **Names do not matter.**  For every renaming that keeps names apart, and whatever gas an
evaluator has used and may use: to evaluate a renamed node or to force a renamed value, in the
renamed environment and with the renamed arguments waiting, gives the answer with the names
replaced, and leaves the evaluator the same; and it goes on for ever exactly if it does without
the renaming.  The same goes for a program; a finished value is given for the renamed program
exactly if it is for the program. -/
theorem evaluation_respects_renaming (ev : Evaluator) :
    (∀ e env stack,
      ev.evalExpr (e.rename σ) (env.rename σ) (stack.map (Expr.rename σ)) =
        (ev.evalExpr e env stack).map (Prod.map (Evaluator.renameAnswer σ) id)) ∧
    (∀ v env stack,
      ev.force (v.rename σ) (env.rename σ) (stack.map (Expr.rename σ)) =
        (ev.force v env stack).map (Prod.map (Evaluator.renameAnswer σ) id)) ∧
    (∀ e, ev.evaluate (e.rename σ) =
        (ev.evaluate e).map (Prod.map (Evaluator.renameAnswer σ) id)) ∧
    ∀ e s ev', ev.evaluate (e.rename σ) = some (.ok (.scalar s), ev') ↔
      ev.evaluate e = some (.ok (.scalar s), ev') := by
  have hprogram : ∀ e, ev.evaluate (e.rename σ) =
      (ev.evaluate e).map (Prod.map (Evaluator.renameAnswer σ) id) :=
    fun e => Call.run_rename σ (.evaluate e) ev
  refine ⟨fun e env stack => Call.run_rename σ (.evalExpr e env stack) ev,
    fun v env stack => Call.run_rename σ (.force v env stack) ev, hprogram, fun e s ev' => ?_⟩
  rw [hprogram]
  cases ev.evaluate e with
  | none => simp
  | some r =>
    rw [Option.map_some, Option.some_inj, Option.some_inj, Prod.ext_iff, Prod.ext_iff]
    exact and_congr_left fun _ => Evaluator.renameAnswer_eq_scalar_iff σ

end WireLambda
