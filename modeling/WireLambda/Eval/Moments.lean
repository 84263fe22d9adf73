import Mathlib.Logic.Relation
import WireLambda.Eval.Machine

/-!
# The moments of a run

Between two visits the machine may do any number of things: a value goes from frame to frame,
and operators compute on the way.  `Machine.give` does all of that at once.  A `Moment` is what
the machine is at, one thing at a time: a node is about to be visited, or a value is about to
be handed to the frames.  Everything that a run holds in store is part of its moment: the node,
the environment, the arguments that wait, the work left over, and the value.

`Moment.after` is what comes next, another moment or the outcome, and `Moment.Reaches` is what
comes sooner or later.  The moments are those of the machine: `run_next` takes one of them at a
time, and by `exists_run_iff` the machine ends with an outcome, on some budget, exactly when
the moments reach it.
-/

namespace WireLambda

/-- What the machine is at. -/
inductive Moment where
  | visit (e : Expr) (env : Env) (stack : List Expr) (frames : List Frame)
  | give (v : Value) (frames : List Frame)

namespace Moment

/-- The first moment of the evaluation of a program. -/
def start (e : Expr) : Moment := visit e .empty [] [⟨.empty, [], .result⟩]

/-- After an operator: its result is handed to the frames, or its fault ends the run. -/
def afterOperator (frames : List Frame) : Except Fault Scalar → Moment ⊕ Except Fault Value
  | .ok s => .inl (give (.scalar s) frames)
  | .error fault => .inr (.error fault)

/-- After a visit. -/
def afterVisit (env : Env) (stack : List Expr) (frames : List Frame) :
    Expr → Moment ⊕ Except Fault Value
  | .literal s => .inl (give (.scalar s) frames)
  | .var x =>
      match env.get? x with
      | none => .inr (.error (.unboundVariable x))
      | some (.deferred (.lambda y body)) => .inl (visit (.lambda y body) env stack frames)
      | some v => .inl (give v frames)
  | .unary op e => .inl (visit e env stack (⟨env, stack, .unary op⟩ :: frames))
  | .binary op l r =>
      if op = .apply then .inl (visit l env (r :: stack) (⟨env, stack, .result⟩ :: frames))
      else .inl (visit l env stack (⟨env, stack, .left op r⟩ :: frames))
  | .lambda x body =>
      match stack with
      | [] => .inr (.error (.stackUnderflow x))
      | arg :: rest => .inl (visit body (env.bind x (.deferred arg)) rest frames)
  | .ite c t e => .inl (visit c env stack (⟨env, stack, .branch t e⟩ :: frames))

/-- After a scalar is handed to the innermost frame. -/
def afterScalar (s : Scalar) (f : Frame) (frames : List Frame) :
    Moment ⊕ Except Fault Value :=
  match f.use with
  | .result => .inl (give (.scalar s) frames)
  | .unary op => afterOperator frames (op.eval s)
  | .left op r => .inl (visit r f.env f.stack (⟨f.env, f.stack, .right op s⟩ :: frames))
  | .right op l => afterOperator frames (op.eval l s)
  | .branch t e =>
      match s with
      | .bool true => .inl (visit t f.env f.stack frames)
      | .bool false => .inl (visit e f.env f.stack frames)
      | other => .inr (.error (.conditionMismatch other.kind))

/-- What comes after a moment: another one, or the outcome of the run. -/
def after : Moment → Moment ⊕ Except Fault Value
  | visit e env stack frames => afterVisit env stack frames e
  | give v [] => .inr (.ok v)
  | give (.deferred e) (f :: frames) => .inl (visit e f.env f.stack (f :: frames))
  | give (.scalar s) (f :: frames) => afterScalar s f frames

section AfterVar

variable {env : Env} {x : VarId} (stack : List Expr) (frames : List Frame)

theorem afterVisit_var_unbound (h : env.get? x = none) :
    afterVisit env stack frames (.var x) = .inr (.error (.unboundVariable x)) := by
  simp only [afterVisit, h]

theorem afterVisit_var_lambda {y : VarId} {body : Expr}
    (h : env.get? x = some (.deferred (.lambda y body))) :
    afterVisit env stack frames (.var x) = .inl (visit (.lambda y body) env stack frames) := by
  simp only [afterVisit, h]

theorem afterVisit_var_value {v : Value} (h : env.get? x = some v)
    (hv : ∀ y body, v ≠ .deferred (.lambda y body)) :
    afterVisit env stack frames (.var x) = .inl (give v frames) := by
  simp only [afterVisit, h]

end AfterVar

/-- What comes sooner or later after a moment, itself included. -/
def Reaches : Moment → Moment → Prop :=
  Relation.ReflTransGen fun m m' => m.after = .inl m'

theorem Reaches.refl (m : Moment) : m.Reaches m := Relation.ReflTransGen.refl

theorem Reaches.head {m m' m'' : Moment} (h : m.after = .inl m') (hreach : m'.Reaches m'') :
    m.Reaches m'' := Relation.ReflTransGen.head h hreach

/-- What holds at first and is kept from each moment to the next holds at all moments. -/
theorem Reaches.induction {P : Moment → Prop} {m m' : Moment} (h : m.Reaches m') (hm : P m)
    (hstep : ∀ m m', P m → m.after = .inl m' → P m') : P m' := by
  induction h with
  | refl => exact hm
  | tail _ hafter ih => exact hstep _ _ ih hafter

/-! ## The moments are those of the machine -/

/-- Where the machine stands at a moment. -/
def next : Moment → Next
  | visit e env stack frames => .visit e env stack frames
  | give v frames => Machine.give v frames

/-- What a moment costs: a visit is paid for. -/
def cost : Moment → Nat
  | visit _ _ _ _ => 1
  | give _ _ => 0

/-- The machine visits a node by going on to the next moment. -/
theorem visit_eq_next {e : Expr} {env : Env} {stack : List Expr} {frames : List Frame} :
    Machine.visit e env stack frames =
      (afterVisit env stack frames e).elim next .halt := by
  cases e with
  | literal s => rfl
  | var x =>
    simp only [Machine.visit, afterVisit]
    cases env.get? x with
    | none => rfl
    | some v =>
      cases v with
      | scalar s => rfl
      | deferred d => cases d <;> rfl
  | unary op e => rfl
  | binary op l r =>
    simp only [Machine.visit, afterVisit]
    split <;> rfl
  | lambda x body => cases stack <;> rfl
  | ite c t e => rfl

/-- A scalar that the machine hands to a frame goes on to the next moment. -/
theorem give_scalar_eq_next {s : Scalar} {f : Frame} {frames : List Frame} :
    Machine.give (.scalar s) (f :: frames) = (afterScalar s f frames).elim next .halt := by
  have hoperator : ∀ o : Except Fault Scalar,
      (match o with
        | .ok a => Machine.give (.scalar a) frames
        | .error fault => .halt (.error fault)) =
      (afterOperator frames o).elim next .halt := by
    intro o
    cases o <;> rfl
  obtain ⟨env, stack, use⟩ := f
  cases use with
  | result => rfl
  | unary op => exact hoperator _
  | left op r => rfl
  | right op l => exact hoperator _
  | branch t e =>
    cases s with
    | bool b => cases b <;> rfl
    | _ => rfl

/-- **One moment.**  The machine, once it has paid for a moment, stands at the next one or has
come to the outcome. -/
theorem run_next (m : Moment) (left : Nat) :
    Machine.run (left + m.cost) m.next =
      m.after.elim (fun m' => Machine.run left m'.next) fun outcome => some (outcome, left) := by
  have helim : ∀ r : Moment ⊕ Except Fault Value, Machine.run left (r.elim next .halt) =
      r.elim (fun m' => Machine.run left m'.next) fun outcome => some (outcome, left) := by
    intro r
    cases r with
    | inl m' => rfl
    | inr outcome => exact Machine.run_halt ..
  cases m with
  | visit e env stack frames =>
    show Machine.run (left + 1) (.visit e env stack frames) = _
    rw [Machine.run_succ_visit, visit_eq_next, helim]
    rfl
  | give v frames =>
    show Machine.run left (Machine.give v frames) = _
    cases frames with
    | nil => exact Machine.run_halt ..
    | cons f frames =>
      cases v with
      | scalar s => rw [give_scalar_eq_next, helim]; rfl
      | deferred e => rfl

/-- What the machine comes to from a moment, the moments come to. -/
def Settles (m : Moment) (budget : Nat) : Prop :=
  ∀ outcome left, Machine.run budget m.next = some (outcome, left) →
    ∃ m', m.Reaches m' ∧ m'.after = .inr outcome

/-- A moment that costs nothing, or that is paid for, settles if the next one does. -/
theorem Settles.of_after {m : Moment} {budget : Nat}
    (h : ∀ m', m.after = .inl m' → m'.Settles budget) : m.Settles (budget + m.cost) := by
  intro outcome left hrun
  rw [run_next] at hrun
  cases hafter : m.after with
  | inl m' =>
    rw [hafter] at hrun
    obtain ⟨last, hreach, hlast⟩ := h m' hafter outcome left hrun
    exact ⟨last, .head hafter hreach, hlast⟩
  | inr outcome' =>
    rw [hafter] at hrun
    obtain ⟨rfl, -⟩ := Prod.mk.inj (Option.some.inj hrun)
    exact ⟨m, .refl m, hafter⟩

/-- A value is handed to fewer and fewer frames until a node is visited. -/
theorem after_give {v : Value} {f : Frame} {frames : List Frame} {m : Moment}
    (h : (give v (f :: frames)).after = .inl m) :
    (∃ e env stack frames', m = visit e env stack frames') ∨ ∃ s, m = give s frames := by
  have hoperator : ∀ o, afterOperator frames o = .inl m → ∃ s, m = give s frames := by
    intro o ho
    cases o with
    | ok a => exact ⟨.scalar a, (Sum.inl.inj ho).symm⟩
    | error fault => cases ho
  cases v with
  | deferred e => exact .inl ⟨_, _, _, _, (Sum.inl.inj h).symm⟩
  | scalar s =>
    obtain ⟨env, stack, use⟩ := f
    cases use with
    | result => exact .inr ⟨_, (Sum.inl.inj h).symm⟩
    | unary op => exact .inr (hoperator _ h)
    | left op r => exact .inl ⟨_, _, _, _, (Sum.inl.inj h).symm⟩
    | right op l => exact .inr (hoperator _ h)
    | branch t e =>
      cases s with
      | bool b => cases b <;> exact .inl ⟨_, _, _, _, (Sum.inl.inj h).symm⟩
      | _ => cases h

/-- All moments settle: the induction is on the budget, and between two visits on the frames. -/
theorem settles (budget : Nat) (m : Moment) : m.Settles budget := by
  have hgive : ∀ budget, (∀ e env stack frames, (visit e env stack frames).Settles budget) →
      ∀ frames v, (give v frames).Settles budget := by
    intro budget hvisit frames
    induction frames with
    | nil => exact fun v => Settles.of_after fun m' h => nomatch h
    | cons f frames ih =>
      refine fun v => Settles.of_after fun m' h => ?_
      rcases after_give h with ⟨e, env, stack, frames', rfl⟩ | ⟨s, rfl⟩
      · exact hvisit e env stack frames'
      · exact ih s
  induction budget generalizing m with
  | zero =>
    have hvisit : ∀ e env stack frames, (visit e env stack frames).Settles 0 :=
      fun e env stack frames outcome left hrun => nomatch hrun
    cases m with
    | visit e env stack frames => exact hvisit e env stack frames
    | give v frames => exact hgive 0 hvisit frames v
  | succ budget ih =>
    have hvisit : ∀ e env stack frames, (visit e env stack frames).Settles (budget + 1) :=
      fun e env stack frames => Settles.of_after fun m' _ => ih m'
    cases m with
    | visit e env stack frames => exact hvisit e env stack frames
    | give v frames => exact hgive _ hvisit frames v

/-- **Moments and runs.**  The machine, given enough, ends with an outcome exactly when the
moments do. -/
theorem exists_run_iff {m : Moment} {outcome : Except Fault Value} :
    (∃ budget left, Machine.run budget m.next = some (outcome, left)) ↔
      ∃ m', m.Reaches m' ∧ m'.after = .inr outcome := by
  constructor
  · intro h
    rcases h with ⟨budget, left, hrun⟩
    exact settles budget m outcome left hrun
  · intro h
    rcases h with ⟨last, hreach, hlast⟩
    induction hreach using Relation.ReflTransGen.head_induction_on with
    | refl => exact ⟨0 + last.cost, 0, by rw [run_next, hlast]; rfl⟩
    | head hafter _ ih =>
      obtain ⟨budget, left, hrun⟩ := ih
      exact ⟨budget + cost _, left, by rw [run_next, hafter]; exact hrun⟩

end Moment
end WireLambda
