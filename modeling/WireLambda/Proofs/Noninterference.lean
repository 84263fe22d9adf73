import WireLambda.Expr.Scope
import WireLambda.Proofs.Arguments
import WireLambda.Proofs.Provenance

/-!
# Bindings that nobody reads

Arguments are passed unevaluated, so an argument for a parameter that nobody reads might as well be
another one, or none: it cannot fail, and takes no time.

Who reads a variable is not to be seen from the expression alone, as its scope is dynamic.  The
variable may be read by an argument that waits, or by an expression that another variable is
bound to.  `Unread x env stack` says that none of these mention it.  What `x` itself is bound
to may well mention it, since nobody will come to look at it.

Evaluation keeps that up.  An argument that is popped goes from the stack into the
environment, whatever the lambda that pops it calls it (`Unread.pop`); a lambda may even bind
`x` again.  And what a visit gives deferred, to be finished outside of the lambdas that were
entered, does not mention `x` either (`Computes.deferred_unread`).  So the derivation for one
environment is a derivation for all environments that differ from it in `x` alone
(`Computes.of_agreeOff`), at the same cost.

To pass an argument takes two visits, so a function that does not read its parameter is evaluated
like its body under two visits less, and has counted two visits more (`Evaluator.Later`).  This has
one exception.  Under the largest word no visit is refused, but two less is a limit that refuses
visits: a body that does not end is cut off there, and goes on for ever behind an argument.

The main result is `unread_binding_has_no_effect`, and `unread_argument_is_never_cut_off` is the
exception.
-/

namespace WireLambda

/-- The variables that are read if a value is evaluated. -/
def Value.reads : Value → List VarId
  | scalar _ => []
  | deferred e => e.reads

/-- The variables that are read by what a task has to evaluate. -/
def Task.reads : Task → List VarId
  | visit e | finish e => e.reads
  | force v => v.reads

theorem Task.not_mem_reads_var {x y : VarId} : x ∉ (visit (.var y)).reads ↔ y ≠ x := by
  simp [reads, Expr.reads, eq_comm]

theorem Task.not_mem_reads_binary {x : VarId} {op : BinaryOp} {l r : Expr} :
    x ∉ (visit (.binary op l r)).reads ↔ x ∉ l.reads ∧ x ∉ r.reads := by
  simp [reads, Expr.reads]

theorem Task.not_mem_reads_ite {x : VarId} {c t e : Expr} :
    x ∉ (visit (.ite c t e)).reads ↔ x ∉ c.reads ∧ x ∉ t.reads ∧ x ∉ e.reads := by
  simp [reads, Expr.reads]

/-- No argument that waits mentions a variable, nor does what another variable is bound to. -/
structure Unread (x : VarId) (env : Env) (stack : List Expr) : Prop where
  waiting : ∀ d ∈ stack, x ∉ d.reads
  bound : ∀ y, y ≠ x → ∀ d, env.get? y = some (.deferred d) → x ∉ d.reads

/-- Two environments that no lookup of another variable than `x` can tell apart. -/
def Env.AgreeOff (x : VarId) (env env' : Env) : Prop := ∀ y, y ≠ x → env.get? y = env'.get? y

variable {x : VarId} {env env' : Env} {stack : List Expr}

theorem Env.AgreeOff.symm (h : env.AgreeOff x env') : env'.AgreeOff x env :=
  fun y hy => (h y hy).symm

/-- Binding the variable itself cannot be told. -/
theorem Env.agreeOff_bind (x : VarId) (env : Env) (v : Value) : (env.bind x v).AgreeOff x env :=
  fun _ hy => Env.get?_bind_of_ne (Ne.symm hy) env v

theorem Env.AgreeOff.bind (h : env.AgreeOff x env') (y : VarId) (v : Value) :
    (env.bind y v).AgreeOff x (env'.bind y v) := by
  intro z hz
  rw [Env.get?_bind, Env.get?_bind, h z hz]

namespace Unread

theorem empty (x : VarId) : Unread x .empty [] :=
  ⟨fun d hd => absurd hd List.not_mem_nil, fun y _ d hd => absurd hd (by simp)⟩

/-- What `x` itself is bound to may read it. -/
theorem of_agreeOff (h : Unread x env stack) (henv : env.AgreeOff x env') :
    Unread x env' stack := by
  refine ⟨h.waiting, fun y hy d hd => h.bound y hy d ?_⟩
  rw [henv y hy, hd]

/-- Pushing an argument that does not read the variable. -/
theorem push {a : Expr} (h : Unread x env stack) (ha : x ∉ a.reads) :
    Unread x env (a :: stack) := by
  refine ⟨fun d hd => ?_, h.bound⟩
  rcases List.mem_cons.1 hd with rfl | hd
  · exact ha
  · exact h.waiting d hd

/-- Popping an argument, for any parameter. -/
theorem pop {a : Expr} (h : Unread x env (a :: stack)) (y : VarId) :
    Unread x (env.bind y (.deferred a)) stack := by
  refine ⟨fun d hd => h.waiting d (List.mem_cons_of_mem a hd), fun z hz d hd => ?_⟩
  rw [Env.get?_bind] at hd
  split at hd
  · obtain rfl := Value.deferred.inj (Option.some.inj hd)
    exact h.waiting a List.mem_cons_self
  · exact h.bound z hz d hd

end Unread

/-! ## Evaluation does not come to read the variable -/

/-- What a task gives deferred does not read the variable. -/
theorem Computes.deferred_unread {task : Task} {outcome : Except Fault Value} {n : Nat}
    (h : Computes env stack task outcome n) (hplace : Unread x env stack)
    (htask : x ∉ task.reads) {d : Expr} (hd : outcome = .ok (.deferred d)) : x ∉ d.reads := by
  induction h with
  | @bound env stack y v hy hv =>
    obtain rfl := Except.ok.inj hd
    have hne := Task.not_mem_reads_var.1 htask
    exact hplace.bound y hne d hy
  | @boundLambda env stack y z body outcome n hy hl ih =>
    have hne := Task.not_mem_reads_var.1 htask
    exact ih hplace (hplace.bound y hne _ hy) hd
  | @lambda env a stack y body outcome n hb ih => exact ih (hplace.pop y) htask hd
  | thenBranch hc ht ihc iht =>
    obtain ⟨-, hxt, -⟩ := Task.not_mem_reads_ite.1 htask
    exact iht hplace hxt hd
  | elseBranch hc he ihc ihe =>
    obtain ⟨-, -, hxe⟩ := Task.not_mem_reads_ite.1 htask
    exact ihe hplace hxe hd
  | unary he ih => exact absurd hd (map_scalar_ne_deferred _ d)
  | binary hop hl hr ihl ihr => exact absurd hd (map_scalar_ne_deferred _ d)
  | apply hf hv ihf ihv => exact absurd hd (hv.ne_deferred (by simp) d)
  | forceDeferred h ih => exact absurd hd (h.ne_deferred (by simp) d)
  | finish he hv ihe ihv => exact absurd hd (hv.ne_deferred (by simp) d)
  | _ => cases hd

/-- What a task gives does not read the variable. -/
theorem Computes.value_unread {task : Task} {v : Value} {n : Nat}
    (h : Computes env stack task (.ok v) n) (hplace : Unread x env stack)
    (htask : x ∉ task.reads) : x ∉ v.reads := by
  cases v with
  | scalar s => exact List.not_mem_nil
  | deferred d => exact h.deferred_unread hplace htask rfl

/-- **Noninterference.**  A task that does not read a variable, in a place where nobody does,
comes to the same in an environment that differs in that variable alone. -/
theorem Computes.of_agreeOff {task : Task} {outcome : Except Fault Value} {n : Nat}
    (h : Computes env stack task outcome n) (hplace : Unread x env stack)
    (htask : x ∉ task.reads) (henv : env.AgreeOff x env') :
    Computes env' stack task outcome n := by
  -- the other environment is general: under a lambda both have one more binding
  induction h generalizing env' with
  | literal => exact .literal
  | @unbound env stack y hy =>
    have hne := Task.not_mem_reads_var.1 htask
    exact .unbound (by rw [← henv y hne, hy])
  | @bound env stack y v hy hv =>
    have hne := Task.not_mem_reads_var.1 htask
    exact .bound (by rw [← henv y hne, hy]) hv
  | @boundLambda env stack y z body outcome n hy hl ih =>
    have hne := Task.not_mem_reads_var.1 htask
    exact .boundLambda (by rw [← henv y hne, hy]) (ih hplace (hplace.bound y hne _ hy) henv)
  | unary he ih => exact .unary (ih hplace htask henv)
  | unaryFault he ih => exact .unaryFault (ih hplace htask henv)
  | binary hop hl hr ihl ihr =>
    obtain ⟨hxl, hxr⟩ := Task.not_mem_reads_binary.1 htask
    exact .binary hop (ihl hplace hxl henv) (ihr hplace hxr henv)
  | leftFault hop hl ihl =>
    obtain ⟨hxl, -⟩ := Task.not_mem_reads_binary.1 htask
    exact .leftFault hop (ihl hplace hxl henv)
  | rightFault hop hl hr ihl ihr =>
    obtain ⟨hxl, hxr⟩ := Task.not_mem_reads_binary.1 htask
    exact .rightFault hop (ihl hplace hxl henv) (ihr hplace hxr henv)
  | apply hf hv ihf ihv =>
    obtain ⟨hxl, hxr⟩ := Task.not_mem_reads_binary.1 htask
    -- what the function gives is forced without the argument, and may be that argument
    have hpushed := hplace.push hxr
    exact .apply (ihf hpushed hxl henv)
      (ihv hplace (hf.value_unread hpushed hxl) henv)
  | applyFault hf ihf =>
    obtain ⟨hxl, hxr⟩ := Task.not_mem_reads_binary.1 htask
    exact .applyFault (ihf (hplace.push hxr) hxl henv)
  | underflow => exact .underflow
  | @lambda env a stack y body outcome n hb ih =>
    exact .lambda (ih (hplace.pop y) htask (henv.bind y _))
  | thenBranch hc ht ihc iht =>
    obtain ⟨hxc, hxt, -⟩ := Task.not_mem_reads_ite.1 htask
    exact .thenBranch (ihc hplace hxc henv) (iht hplace hxt henv)
  | elseBranch hc he ihc ihe =>
    obtain ⟨hxc, -, hxe⟩ := Task.not_mem_reads_ite.1 htask
    exact .elseBranch (ihc hplace hxc henv) (ihe hplace hxe henv)
  | conditionMismatch ha hc ihc =>
    obtain ⟨hxc, -⟩ := Task.not_mem_reads_ite.1 htask
    exact .conditionMismatch ha (ihc hplace hxc henv)
  | conditionFault hc ihc =>
    obtain ⟨hxc, -⟩ := Task.not_mem_reads_ite.1 htask
    exact .conditionFault (ihc hplace hxc henv)
  | forceScalar => exact .forceScalar
  | forceDeferred h ih => exact .forceDeferred (ih hplace htask henv)
  | finish he hv ihe ihv =>
    exact .finish (ihe hplace htask henv) (ihv hplace (he.value_unread hplace htask) henv)
  | finishFault he ih => exact .finishFault (ih hplace htask henv)

/-- The two environments are on a par. -/
theorem computes_agreeOff_iff (task : Task) {outcome : Except Fault Value} {n : Nat}
    (hplace : Unread x env stack) (htask : x ∉ task.reads) (henv : env.AgreeOff x env') :
    Computes env stack task outcome n ↔ Computes env' stack task outcome n :=
  ⟨fun h => h.of_agreeOff hplace htask henv,
    fun h => h.of_agreeOff (hplace.of_agreeOff henv) htask henv.symm⟩

/-! ## Arguments that nobody reads -/

/-- A program that passes an argument to a function that does not read it gives what the body of
the function gives, two visits later. -/
theorem Call.computes_ignored_iff {body a : Expr} (hbody : x ∉ body.reads)
    {outcome : Except Fault Value} {m : Nat} :
    (Call.evaluate (.apply (.lambda x body) a)).Computes outcome m ↔
      ∃ n, m = n + 2 ∧ (Call.evaluate body).Computes outcome n := by
  have hbound : ∀ o n, WireLambda.Computes (Env.empty.bind x (.deferred a)) [] (.visit body) o n ↔
      WireLambda.Computes .empty [] (.visit body) o n := by
    intro o n
    refine (computes_agreeOff_iff (.visit body) (Unread.empty x) hbody ?_).symm
    exact (Env.agreeOff_bind x .empty _).symm
  have hfinished : ∀ d n, ¬ WireLambda.Computes (Env.empty.bindAll [(x, a)]) [] (.visit body)
      (.ok (.deferred d)) n := by
    intro d n h
    exact not_pending_empty d (((hbound _ n).1 h).pending_of_deferred rfl)
  show WireLambda.Computes .empty [] (.finish (.applyLambdas [(x, a)] body)) outcome m ↔
    ∃ n, m = n + 2 ∧ WireLambda.Computes .empty [] (.finish body) outcome n
  simp only [computes_finish_empty_iff, computes_applyLambdas_iff hfinished]
  exact exists_congr fun n => and_congr_right' (hbound outcome n)

/-- Such a program is evaluated like the body on an evaluator that has made two visits. -/
theorem Call.evaluate_ignored_eq {body : Expr} (hbody : x ∉ body.reads) (a : Expr)
    {ev : Evaluator} (hallowed : ev.Allows 2) :
    ev.evaluate (.apply (.lambda x body) a) = (ev.spend 2).evaluate body := by
  refine @Call.run_eq_run_spend (.evaluate (.apply (.lambda x body) a)) (.evaluate body) ev 2
    hallowed (fun o n _ h => ?_) fun o m h => ?_
  · exact (Call.computes_ignored_iff hbody).2 ⟨n, rfl, h⟩
  · obtain ⟨n, rfl, hn⟩ := (Call.computes_ignored_iff hbody).1 h
    exact ⟨o, n, Nat.le_refl _, hn⟩

/-- Whether two answers have the same outcome, and the first has counted some visits more. -/
def Evaluator.Later (visits : Nat)
    (answer answer' : Option (Except EvalError Value × Evaluator)) : Prop :=
  ∃ outcome ev ev', answer = some (outcome, ev) ∧ answer' = some (outcome, ev') ∧
    ev.gasUsed.toNat = ev'.gasUsed.toNat + visits

section Unused

variable {body : Expr} {a : Expr} {limit : UInt64}

theorem toNat_sub_two (hlimit : 2 ≤ limit) :
    (limit - 2).toNat = limit.toNat - 2 ∧ 2 ≤ limit.toNat :=
  ⟨UInt64.toNat_sub_of_le _ _ hlimit, UInt64.le_iff_toNat_le.1 hlimit⟩

theorem Evaluator.allows_new_two (hlimit : 2 ≤ limit) : (Evaluator.new ⟨limit⟩).Allows 2 :=
  allows_new_iff.2 (.inl (UInt64.le_iff_toNat_le.1 hlimit))

/-- Under a limit that some count is above, such a program comes to what the body comes to under
two visits less, be it that the gas is exhausted. -/
theorem Call.later_evaluate_ignored (hbody : x ∉ body.reads) (hlimit : 2 ≤ limit)
    (hword : limit.toNat + 1 < UInt64.size) :
    Evaluator.Later 2 ((Evaluator.new ⟨limit⟩).evaluate (.apply (.lambda x body) a))
      ((Evaluator.new ⟨limit - 2⟩).evaluate body) := by
  obtain ⟨hless, hle⟩ := toNat_sub_two hlimit
  have htwo : ((Evaluator.new ⟨limit⟩).spend 2).gasUsed.toNat = 2 := rfl
  have hremaining : ((Evaluator.new ⟨limit⟩).spend 2).remaining = (limit - 2).toNat := hless.symm
  obtain ⟨outcome, visits, hvisits, hrun, hrun'⟩ :=
    ((Evaluator.new ⟨limit⟩).spend 2).evaluate_eq_apart body
      (by rw [htwo]; show max 2 limit.toNat + 1 < _; omega)
  rw [hremaining] at hvisits hrun'
  rw [UInt64.ofNat_toNat] at hrun'
  rw [Call.evaluate_ignored_eq hbody a (Evaluator.allows_new_two hlimit)]
  refine ⟨outcome, _, _, hrun, hrun', ?_⟩
  rw [Evaluator.toNat_gasUsed_new _ (by omega),
    Evaluator.toNat_gasUsed_spend (by rw [htwo]; omega), htwo, Nat.add_comm]

/-- The two are answered like this exactly if the limit is such a one or the body comes to an
outcome within it. -/
theorem Call.later_evaluate_ignored_iff (hbody : x ∉ body.reads) (hlimit : 2 ≤ limit) :
    Evaluator.Later 2 ((Evaluator.new ⟨limit⟩).evaluate (.apply (.lambda x body) a))
        ((Evaluator.new ⟨limit - 2⟩).evaluate body) ↔
      limit.toNat + 1 < UInt64.size ∨
        ∃ outcome n, n + 2 ≤ limit.toNat ∧ (Call.evaluate body).Computes outcome n := by
  obtain ⟨hless, hle⟩ := toNat_sub_two hlimit
  constructor
  · intro h
    rcases h with ⟨outcome, ev, ev', hrun, hrun', -⟩
    refine Classical.byContradiction fun hnot => ?_
    -- the body is cut off, while under the largest word nothing is
    have hlargest : limit.toNat + 1 = UInt64.size := by
      have hsize := limit.toNat_lt_size
      exact Nat.le_antisymm hsize (Nat.le_of_not_lt fun hlt => hnot (.inl hlt))
    have hcut : (Call.evaluate body).run (.new ⟨limit - 2⟩) =
        some (.error .gasExhausted, ⟨⟨limit - 2⟩, limit - 2 + 1⟩) := by
      refine (Call.run_new_eq_gasExhausted_iff ?_).2 fun o n h => ?_
      · show (limit - 2).toNat + 1 < _
        omega
      · refine Nat.lt_of_not_le fun hn => hnot (.inr ⟨o, n, ?_, h⟩)
        have hn : n ≤ (limit - 2).toNat := hn
        omega
    obtain ⟨rfl, -⟩ := Prod.mk.inj (Option.some.inj (hrun'.symm.trans hcut))
    obtain ⟨n, -, hrefused, -⟩ :=
      (Call.run_eq_gasExhausted_iff (c := .evaluate (.apply (.lambda x body) a))).1 hrun
    exact hrefused (Evaluator.allows_new_iff.2 (.inr hlargest))
  · intro h
    rcases h with hword | ⟨outcome, n, hn, h⟩
    · exact Call.later_evaluate_ignored hbody hlimit hword
    · have hsize := limit.toNat_lt_size
      have hallowed : (Evaluator.new ⟨limit⟩).Allows (n + 2) := Evaluator.allows_new_iff.2 (.inl hn)
      have hallowed' : (Evaluator.new ⟨limit - 2⟩).Allows n :=
        Evaluator.allows_new_iff.2 (.inl (by show n ≤ (limit - 2).toNat; omega))
      have hignored := (@Call.computes_ignored_iff x body a hbody outcome _).2 ⟨n, rfl, h⟩
      refine ⟨_, _, _, Call.run_of_allowed hignored hallowed, Call.run_of_allowed h hallowed', ?_⟩
      rw [Evaluator.toNat_gasUsed_new _ (by omega), Evaluator.toNat_gasUsed_new _ (by omega)]

end Unused

/-- **A binding that nobody reads has no effect.**

* Let a variable be mentioned neither by an expression, nor by the arguments that wait, nor by
  what other variables are bound to.  Whether it is bound, and to what, then makes no difference
  to the evaluation of the expression: the answer is the same, and so is the count.
* A function that does not mention its parameter is evaluated the same with any argument, on
  every evaluator.
* Under a limit of two visits at least, it is evaluated like its body where two visits have been
  counted.
* It then gives what its body alone gives under two visits less, and has counted two visits more,
  exactly if there is a count above the limit or the body comes to an outcome within it.  The
  largest word is a limit that refuses nothing, whereas two less is one that does. -/
theorem unread_binding_has_no_effect (x : VarId) :
    (∀ (ev : Evaluator) (e : Expr) (env : Env) (stack : List Expr) (v₁ v₂ : Value),
      x ∉ e.reads → (∀ d ∈ stack, x ∉ d.reads) →
      (∀ y, y ≠ x → ∀ d, env.get? y = some (.deferred d) → x ∉ d.reads) →
      ev.evalExpr e (env.bind x v₁) stack = ev.evalExpr e env stack ∧
      ev.evalExpr e (env.bind x v₂) stack = ev.evalExpr e env stack) ∧
    (∀ (ev : Evaluator) (body a b : Expr), x ∉ body.reads →
      ev.evaluate (.apply (.lambda x body) a) = ev.evaluate (.apply (.lambda x body) b)) ∧
    (∀ (limit : UInt64) (body a : Expr), x ∉ body.reads → 2 ≤ limit →
      (Evaluator.new ⟨limit⟩).evaluate (.apply (.lambda x body) a) =
        (Evaluator.mk ⟨limit⟩ 2).evaluate body) ∧
    (∀ (limit : UInt64) (body a : Expr), x ∉ body.reads → 2 ≤ limit →
      (Evaluator.Later 2 ((Evaluator.new ⟨limit⟩).evaluate (.apply (.lambda x body) a))
          ((Evaluator.new ⟨limit - 2⟩).evaluate body) ↔
        limit.toNat + 1 < UInt64.size ∨
          ∃ outcome n, n + 2 ≤ limit.toNat ∧ (Call.evaluate body).Computes outcome n)) := by
  refine ⟨?_, ?_, ?_, ?_⟩
  · intro ev e env stack v₁ v₂ he hwaiting hbound
    have hplace : Unread x env stack := ⟨hwaiting, hbound⟩
    have hbind : ∀ v, ev.evalExpr e (env.bind x v) stack = ev.evalExpr e env stack := by
      intro v
      have hiff : ∀ o n, (Call.evalExpr e (env.bind x v) stack).Computes o n ↔
          (Call.evalExpr e env stack).Computes o n := fun o n =>
        (computes_agreeOff_iff (.visit e) hplace he (Env.agreeOff_bind x env v).symm).symm
      exact Call.run_eq_of_computes_iff hiff ev
    exact ⟨hbind v₁, hbind v₂⟩
  · intro ev body a b hbody
    have hiff : ∀ o n, (Call.evaluate (.apply (.lambda x body) a)).Computes o n ↔
        (Call.evaluate (.apply (.lambda x body) b)).Computes o n := fun o n =>
      (Call.computes_ignored_iff hbody).trans (Call.computes_ignored_iff hbody).symm
    exact Call.run_eq_of_computes_iff hiff ev
  · intro limit body a hbody hlimit
    exact Call.evaluate_ignored_eq hbody a (Evaluator.allows_new_two hlimit)
  · intro limit body a hbody hlimit
    exact Call.later_evaluate_ignored_iff hbody hlimit

/-- A sum that a lambda makes of its argument and of what another variable is bound to. -/
def sumOfBoth : Expr := .lambda ⟨1⟩ (.binary .add (.var ⟨2⟩) (.var ⟨3⟩))

/-- An environment where one variable is bound to another. -/
def secondIsThird : Env :=
  (Env.empty.bind ⟨2⟩ (.deferred (.var ⟨3⟩))).bind ⟨3⟩ (.scalar (.int 4))

/-- A lambda pops an argument for a variable that nobody reads, and that variable may be bound to
itself before.  And an argument whose evaluation would not end is as good as one that fails. -/
theorem unread_binding_has_no_effect_endless :
    (VarId.mk 1 ∉ sumOfBoth.reads ∧ (∀ d ∈ [Expr.literal (.int 7)], VarId.mk 1 ∉ d.reads) ∧
      ∀ y, y ≠ VarId.mk 1 → ∀ d, secondIsThird.get? y = some (.deferred d) →
        VarId.mk 1 ∉ d.reads) ∧
    (Evaluator.new ⟨9⟩).evalExpr sumOfBoth (secondIsThird.bind ⟨1⟩ (.deferred endless))
        [.literal (.int 7)] = some (.ok (.scalar (.int 8)), ⟨⟨9⟩, 5⟩) ∧
    VarId.mk 1 ∉ (Expr.literal (.int 4)).reads ∧ (2 : UInt64) ≤ 9 ∧
    (Evaluator.new ⟨9⟩).evaluate endless = some (.error .gasExhausted, ⟨⟨9⟩, 10⟩) ∧
    (Evaluator.new ⟨9⟩).evaluate (.apply (.lambda ⟨1⟩ (.literal (.int 4))) endless) =
      (Evaluator.new ⟨9⟩).evaluate (.apply (.lambda ⟨1⟩ (.literal (.int 4))) (.var ⟨2⟩)) ∧
    (Evaluator.new ⟨9⟩).evaluate (.apply (.lambda ⟨1⟩ (.literal (.int 4))) endless) =
      some (.ok (.scalar (.int 4)), ⟨⟨9⟩, 3⟩) ∧
    (9 : UInt64).toNat + 1 < UInt64.size ∧
    Evaluator.Later 2
      ((Evaluator.new ⟨9⟩).evaluate (.apply (.lambda ⟨1⟩ (.literal (.int 4))) endless))
      ((Evaluator.new ⟨7⟩).evaluate (.literal (.int 4))) := by
  have hreads : VarId.mk 1 ∉ sumOfBoth.reads := by decide
  have hwaiting : ∀ d ∈ [Expr.literal (.int 7)], VarId.mk 1 ∉ d.reads := by decide
  have hbound : ∀ y, y ≠ VarId.mk 1 → ∀ d, secondIsThird.get? y = some (.deferred d) →
      VarId.mk 1 ∉ d.reads := by
    intro y _ d hd
    rw [secondIsThird, Env.get?_bind, Env.get?_bind] at hd
    split at hd
    · cases hd
    · split at hd
      · obtain rfl := Value.deferred.inj (Option.some.inj hd)
        decide
      · cases hd
  have hbody : VarId.mk 1 ∉ (Expr.literal (.int 4)).reads := by decide
  have hlimit : (2 : UInt64) ≤ 9 := by decide
  have hword : (9 : UInt64).toNat + 1 < UInt64.size := by decide
  have hsum : (Evaluator.new ⟨9⟩).evalExpr sumOfBoth secondIsThird [.literal (.int 7)] =
      some (.ok (.scalar (.int 8)), ⟨⟨9⟩, 5⟩) :=
    .trans (Evaluator.run_of_ends (n := 5) (by decide) rfl) rfl
  have hendless : (Evaluator.new ⟨9⟩).evaluate endless =
      some (.error .gasExhausted, ⟨⟨9⟩, 10⟩) :=
    Evaluator.run_of_cut (n := 9) (by decide) (by decide) rfl
  have hvisited : (Evaluator.mk ⟨9⟩ 2).evaluate (.literal (.int 4)) =
      some (.ok (.scalar (.int 4)), ⟨⟨9⟩, 3⟩) :=
    .trans (Evaluator.run_of_ends (n := 1) (by decide) rfl) rfl
  obtain ⟨hplace, hargument, hlater, hwithin⟩ := unread_binding_has_no_effect ⟨1⟩
  refine ⟨⟨hreads, hwaiting, hbound⟩, ?_, hbody, hlimit, hendless, ?_, ?_, hword, ?_⟩
  · obtain ⟨hdeferred, -⟩ := hplace (.new ⟨9⟩) _ _ _ (.deferred endless) (.scalar (.int 0))
      hreads hwaiting hbound
    exact hdeferred.trans hsum
  · exact hargument _ _ endless (.var ⟨2⟩) hbody
  · exact (hlater 9 _ endless hbody hlimit).trans hvisited
  · exact (hwithin 9 _ endless hbody hlimit).2 (.inl hword)

/-- Under the largest word the two come apart, where the evaluation of the body does not end.  The
body is cut off under two visits less, but with an argument before it no visit is refused. -/
theorem unread_argument_is_never_cut_off :
    VarId.mk 2 ∉ endless.reads ∧ (2 : UInt64) ≤ 18446744073709551615 ∧
    (Evaluator.new ⟨18446744073709551615⟩).evaluate
      (.apply (.lambda ⟨2⟩ endless) (.literal (.int 4))) = none ∧
    (Evaluator.new ⟨18446744073709551615 - 2⟩).evaluate endless =
      some (.error .gasExhausted, ⟨⟨18446744073709551613⟩, 18446744073709551614⟩) ∧
    ¬ Evaluator.Later 2
      ((Evaluator.new ⟨18446744073709551615⟩).evaluate
        (.apply (.lambda ⟨2⟩ endless) (.literal (.int 4))))
      ((Evaluator.new ⟨18446744073709551615 - 2⟩).evaluate endless) := by
  have hbody : VarId.mk 2 ∉ endless.reads := by decide
  have hendless : (Evaluator.new ⟨18446744073709551615⟩).evaluate
      (.apply (.lambda ⟨2⟩ endless) (.literal (.int 4))) = none := by
    refine (Call.run_eq_none_iff (c := .evaluate _)).2 ⟨by decide, fun outcome n h => ?_⟩
    obtain ⟨m, -, hm⟩ := (Call.computes_ignored_iff hbody).1 h
    exact (Call.not_computes_endless outcome m).2 hm
  have hcut : (Evaluator.new ⟨18446744073709551615 - 2⟩).evaluate endless =
      some (.error .gasExhausted, ⟨⟨18446744073709551613⟩, 18446744073709551614⟩) :=
    (Call.run_new_eq_gasExhausted_iff (c := .evaluate endless) (by decide)).2
      fun outcome n h => absurd h (Call.not_computes_endless outcome n).2
  refine ⟨hbody, by decide, hendless, hcut, ?_⟩
  rintro ⟨outcome, ev, ev', hrun, -⟩
  rw [hendless] at hrun
  cases hrun

end WireLambda
