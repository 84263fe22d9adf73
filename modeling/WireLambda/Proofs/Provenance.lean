import WireLambda.Proofs.Metering

/-!
# Where deferred values come from

A deferred value is an expression without an environment, to be evaluated wherever someone
needs it.  Evaluation does not make such expressions up.  The ones that are `Pending` in a
place are the arguments that wait there and the expressions that variables are bound to, and
a visit that gives a deferred value gives one of these (`Computes.provenance`).  It is not a
lambda: a variable that stands for a lambda is that lambda, and is visited as such.

So what an application has to finish, in its own place, is an expression of that place or
its argument, even after the lambdas that were entered for it are left and their bindings
are gone: `Pending.of_bind` says that a binding made by a lambda is an argument outside.
And where nothing is pending nothing is deferred, so a program is finished by the visit of its
root (`Evaluator.evaluate_eq_evalExpr`).

Nor do operators ever meet a deferred value, since their operands are finished first.  The
kinds that a mismatch has found (`Fault.found`) are kinds of scalars
(`Computes.kind_ne_unevaluated`).

The main result is `deferred_values_are_pending`.
-/

namespace WireLambda

/-- An expression that may be evaluated in a place without standing in its program: an
argument that waits there, or what a variable is bound to. -/
def Pending (env : Env) (stack : List Expr) (d : Expr) : Prop :=
  d ∈ stack ∨ ∃ x, env.get? x = some (.deferred d)

theorem not_pending_empty (d : Expr) : ¬ Pending .empty [] d := by
  rintro (h | ⟨x, h⟩)
  · exact absurd h List.not_mem_nil
  · exact absurd h (by simp)

theorem pending_cons_iff {env : Env} {stack : List Expr} {a d : Expr} :
    Pending env (a :: stack) d ↔ d = a ∨ Pending env stack d := by
  rw [Pending, Pending, List.mem_cons, or_assoc]

/-- What is pending inside a lambda was pending outside. -/
theorem Pending.of_bind {env : Env} {stack : List Expr} {x : VarId} {a d : Expr}
    (h : Pending (env.bind x (.deferred a)) stack d) : Pending env (a :: stack) d := by
  rcases h with h | ⟨y, h⟩
  · exact .inl (List.mem_cons_of_mem a h)
  · rw [Env.get?_bind] at h
    split at h
    · obtain rfl := Value.deferred.inj (Option.some.inj h)
      exact .inl List.mem_cons_self
    · exact .inr ⟨y, h⟩

theorem Expr.isLambda_eq_false_iff {e : Expr} :
    e.isLambda = false ↔ ∀ x body, e ≠ .lambda x body := by
  cases e <;> simp [isLambda]

/-! ## Provenance -/

/-- What an operator gives is finished. -/
theorem map_scalar_ne_deferred (outcome : Except Fault Scalar) (d : Expr) :
    outcome.map Value.scalar ≠ .ok (.deferred d) := by
  intro h
  obtain ⟨s, -, hs⟩ := map_eq_ok_iff.1 h
  cases hs

/-- **Provenance.**  A deferred value that an evaluation gives was pending where the
evaluation began, and is not a lambda. -/
theorem Computes.provenance {env : Env} {stack : List Expr} {task : Task}
    {outcome : Except Fault Value} {n : Nat} (h : Computes env stack task outcome n)
    {d : Expr} (hd : outcome = .ok (.deferred d)) :
    Pending env stack d ∧ d.isLambda = false := by
  induction h with
  | bound hx hv =>
    obtain rfl := Except.ok.inj hd
    refine ⟨.inr ⟨_, hx⟩, Expr.isLambda_eq_false_iff.2 fun y body hlambda => ?_⟩
    exact hv y body (congrArg Value.deferred hlambda)
  | boundLambda hx hl ih => exact ih hd
  | lambda hb ih => exact ⟨(ih hd).1.of_bind, (ih hd).2⟩
  | thenBranch hc ht ihc iht => exact iht hd
  | elseBranch hc he ihc ihe => exact ihe hd
  | unary he ih => exact absurd hd (map_scalar_ne_deferred _ d)
  | binary hop hl hr ihl ihr => exact absurd hd (map_scalar_ne_deferred _ d)
  | apply hf hv ihf ihv => exact absurd hd (hv.ne_deferred (by simp) d)
  | forceDeferred h ih => exact absurd hd (h.ne_deferred (by simp) d)
  | finish he hv ihe ihv => exact absurd hd (hv.ne_deferred (by simp) d)
  | _ => cases hd

theorem Computes.pending_of_deferred {env : Env} {stack : List Expr} {task : Task}
    {outcome : Except Fault Value} {n : Nat} (h : Computes env stack task outcome n)
    {d : Expr} (hd : outcome = .ok (.deferred d)) : Pending env stack d :=
  (h.provenance hd).1

/-- A visit gives a deferred value only at a variable, or where it hands on what the body of a
lambda or a branch of a conditional gives. -/
theorem Computes.node_of_deferred {env : Env} {stack : List Expr} {e d : Expr} {n : Nat}
    (h : Computes env stack (.visit e) (.ok (.deferred d)) n) :
    (∃ x, e = .var x) ∨ (∃ x body, e = .lambda x body) ∨ ∃ c t f, e = .ite c t f := by
  cases e with
  | var x => exact .inl ⟨x, rfl⟩
  | lambda x body => exact .inr (.inl ⟨x, body, rfl⟩)
  | ite c t f => exact .inr (.inr ⟨c, t, f, rfl⟩)
  | literal s => cases h
  | unary op e =>
    generalize houtcome : (Except.ok (.deferred d) : Except Fault Value) = outcome at h
    cases h with
    | unary he => exact absurd houtcome.symm (map_scalar_ne_deferred _ d)
    | unaryFault he => cases houtcome
  | binary op l r =>
    generalize houtcome : (Except.ok (.deferred d) : Except Fault Value) = outcome at h
    cases h with
    | binary hop hl hr => exact absurd houtcome.symm (map_scalar_ne_deferred _ d)
    | apply hf hv => exact absurd houtcome.symm (hv.ne_deferred (by simp) d)
    | leftFault hop hl => cases houtcome
    | rightFault hop hl hr => cases houtcome
    | applyFault hf => cases houtcome

/-! ## Places where nothing is pending -/

/-- Finishing what is finished by a visit adds nothing to the visit. -/
theorem computes_finish_iff {env : Env} {stack : List Expr} {e : Expr}
    {outcome : Except Fault Value} {m : Nat}
    (h : ∀ v n, Computes env stack (.visit e) (.ok v) n → v.isDeferred = false) :
    Computes env stack (.finish e) outcome m ↔ Computes env stack (.visit e) outcome m := by
  constructor
  · intro hfinish
    cases hfinish with
    | finishFault he => exact he
    | @finish env stack e v outcome n k he hv =>
      have hscalar := h v n he
      cases v with
      | deferred d => exact absurd hscalar (by simp [Value.isDeferred])
      | scalar s' =>
        cases hv with
        | forceScalar => exact he
  · intro hvisit
    cases outcome with
    | error fault => exact .finishFault hvisit
    | ok v =>
      have hscalar := h v m hvisit
      cases v with
      | deferred d => exact absurd hscalar (by simp [Value.isDeferred])
      | scalar s => exact .finish hvisit .forceScalar

/-- Where nothing is pending, what a visit gives is finished. -/
theorem Computes.isDeferred_of_empty {e : Expr} {v : Value} {n : Nat}
    (h : Computes .empty [] (.visit e) (.ok v) n) : v.isDeferred = false := by
  cases v with
  | scalar s => rfl
  | deferred d => exact absurd (h.pending_of_deferred rfl) (not_pending_empty d)

/-- Where nothing is pending, finishing a node is visiting it. -/
theorem computes_finish_empty_iff {e : Expr} {outcome : Except Fault Value} {n : Nat} :
    Computes .empty [] (.finish e) outcome n ↔ Computes .empty [] (.visit e) outcome n :=
  computes_finish_iff fun _ _ h => h.isDeferred_of_empty

/-- To evaluate a program is to visit its root.  That the value is to be finished adds no
visit. -/
theorem Evaluator.evaluate_eq_evalExpr (ev : Evaluator) (e : Expr) :
    ev.evaluate e = ev.evalExpr e .empty [] :=
  @Call.run_eq_of_computes_iff (.evaluate e) (.evalExpr e .empty [])
    (fun _ _ => computes_finish_empty_iff) ev

/-! ## What a mismatch has found -/

/-- The kinds of the operands that a mismatch has found. -/
def Fault.found : Fault → List Kind
  | unaryMismatch _ found | conditionMismatch found => [found]
  | binaryMismatch _ left right => [left, right]
  | unboundVariable _ | stackUnderflow _ | divisionByZero | conversion _ => []

/-- Nothing that a mismatch has found is unevaluated. -/
theorem Computes.kind_ne_unevaluated {env : Env} {stack : List Expr} {task : Task}
    {outcome : Except Fault Value} {n : Nat} (h : Computes env stack task outcome n)
    {fault : Fault} (hfault : outcome = .error fault) :
    ∀ kind ∈ fault.found, kind ≠ .unevaluated := by
  induction h with
  | literal | bound | forceScalar => cases hfault
  | unbound | underflow =>
    obtain rfl := Except.error.inj hfault
    exact fun kind hkind => absurd hkind List.not_mem_nil
  | @unary env stack op e a n he ih =>
    rcases UnaryOp.eval_eq_error (map_eq_error_iff.1 hfault) with rfl | ⟨e, rfl⟩
    · simp [Fault.found, a.kind_ne_unevaluated]
    · simp [Fault.found]
  | @binary env stack op l r a b n m hop hl hr ihl ihr =>
    rcases BinaryOp.eval_eq_error (map_eq_error_iff.1 hfault) with rfl | rfl
    · simp [Fault.found, a.kind_ne_unevaluated, b.kind_ne_unevaluated]
    · simp [Fault.found]
  | @conditionMismatch env stack c t e a n ha hc ih =>
    obtain rfl := Except.error.inj hfault
    simp [Fault.found, a.kind_ne_unevaluated]
  | unaryFault _ ih | leftFault _ _ ih | applyFault _ ih | conditionFault _ ih
  | finishFault _ ih | forceDeferred _ ih | boundLambda _ _ ih | lambda _ ih =>
    exact ih hfault
  | rightFault _ _ _ _ ih | apply _ _ _ ih | thenBranch _ _ _ ih | elseBranch _ _ _ ih
  | finish _ _ _ ih =>
    exact ih hfault

/-! ## The main result -/

/-- **Deferred values are pending ones.**

* A deferred value that the evaluation of a node gives is one of the arguments that wait or
  one of the expressions that variables are bound to, and it is not a lambda.
* Literals, operators and applications give none.
* Where no variable is bound and no argument waits, no node gives one.  So what the evaluation
  of a program has to finish is finished already: it is the visit of the root, and gives a
  scalar or an error.
* No call is answered by a mismatch that has found an unevaluated expression. -/
theorem deferred_values_are_pending :
    (∀ (ev ev' : Evaluator) (e : Expr) (env : Env) (stack : List Expr) (d : Expr),
      ev.evalExpr e env stack = some (.ok (.deferred d), ev') →
        (d ∈ stack ∨ ∃ x, env.get? x = some (.deferred d)) ∧ ∀ x body, d ≠ .lambda x body) ∧
    (∀ (ev ev' : Evaluator) (env : Env) (stack : List Expr) (d : Expr),
      (∀ s, ev.evalExpr (.literal s) env stack ≠ some (.ok (.deferred d), ev')) ∧
      (∀ op e, ev.evalExpr (.unary op e) env stack ≠ some (.ok (.deferred d), ev')) ∧
      ∀ op l r, ev.evalExpr (.binary op l r) env stack ≠ some (.ok (.deferred d), ev')) ∧
    (∀ (ev : Evaluator) (e : Expr),
      (∀ d ev', ev.evalExpr e .empty [] ≠ some (.ok (.deferred d), ev')) ∧
      ev.evaluate e = ev.evalExpr e .empty [] ∧
      (∀ answer ev', ev.evaluate e = some (answer, ev') →
        (∃ s, answer = .ok (.scalar s)) ∨ ∃ err, answer = .error err) ∧
      (ev.limits.gasLimit.toNat + 1 < UInt64.size → (ev.evaluate e).isSome = true)) ∧
    (∀ (c : Call) (ev ev' : Evaluator) (fault : Fault),
      c.run ev = some (.error (.fault fault), ev') →
        ∀ kind ∈ fault.found, kind.name ≠ "unevaluated expression") := by
  have hgives : ∀ (ev ev' : Evaluator) e env stack d,
      ev.evalExpr e env stack = some (.ok (.deferred d), ev') →
        ∃ n, Computes env stack (.visit e) (.ok (.deferred d)) n := by
    intro ev ev' e env stack d h
    exact @Call.computes_of_run (.evalExpr e env stack) ev (.ok (.deferred d)) ev' h
  have hempty : ∀ (ev : Evaluator) e d ev',
      ev.evalExpr e .empty [] ≠ some (.ok (.deferred d), ev') := by
    intro ev e d ev' h
    obtain ⟨n, hn⟩ := hgives ev ev' e .empty [] d h
    exact not_pending_empty d (hn.pending_of_deferred rfl)
  refine ⟨fun ev ev' e env stack d h => ?_, fun ev ev' env stack d => ?_, fun ev e => ?_, ?_⟩
  · obtain ⟨n, hn⟩ := hgives ev ev' e env stack d h
    obtain ⟨hpending, hlambda⟩ := hn.provenance rfl
    exact ⟨hpending, Expr.isLambda_eq_false_iff.1 hlambda⟩
  · refine ⟨fun s h => ?_, fun op e h => ?_, fun op l r h => ?_⟩
    all_goals
      obtain ⟨n, hn⟩ := hgives ev ev' _ env stack d h
      rcases hn.node_of_deferred with ⟨x, h⟩ | ⟨x, body, h⟩ | ⟨c, t, f, h⟩ <;> cases h
  · refine ⟨hempty ev e, ev.evaluate_eq_evalExpr e, fun answer ev' h => ?_,
      fun hlimit => Evaluator.isSome_run hlimit _⟩
    rw [ev.evaluate_eq_evalExpr e] at h
    cases answer with
    | error err => exact .inr ⟨err, rfl⟩
    | ok v =>
      cases v with
      | scalar s => exact .inl ⟨s, rfl⟩
      | deferred d => exact absurd h (hempty ev e d ev')
  · intro c ev ev' fault h kind hkind hname
    obtain ⟨n, hn⟩ := @Call.computes_of_run c ev (.error fault) ev' h
    have hkind := hn.kind_ne_unevaluated rfl kind hkind
    cases kind with
    | unevaluated => exact hkind rfl
    | _ => exact absurd hname (by decide)

/-- A lambda that hands on, through a branch, what another variable is bound to. -/
def handsOn : Expr := .lambda ⟨3⟩ (.ite (.literal (.bool true)) (.var ⟨1⟩) (.var ⟨3⟩))

/-- What is handed on is what the variable is bound to, and a mismatch of an integer and a
truth value has found nothing unevaluated. -/
theorem deferred_values_are_pending_handsOn :
    (Evaluator.new ⟨9⟩).evalExpr handsOn (Env.empty.bind ⟨1⟩ (.deferred (.var ⟨2⟩)))
        [.literal (.int 5)] = some (.ok (.deferred (.var ⟨2⟩)), ⟨⟨9⟩, 4⟩) ∧
      (Expr.var ⟨2⟩ ∈ [Expr.literal (.int 5)] ∨
        ∃ x, (Env.empty.bind ⟨1⟩ (.deferred (.var ⟨2⟩))).get? x =
          some (.deferred (.var ⟨2⟩))) ∧
      (Call.evaluate (.binary .add (.literal (.int 1)) (.literal (.bool true)))).run
          (.new ⟨9⟩) =
        some (.error (.fault (.binaryMismatch .add .integer .boolean)), ⟨⟨9⟩, 3⟩) ∧
      ∀ kind ∈ (Fault.binaryMismatch .add .integer .boolean).found,
        kind.name ≠ "unevaluated expression" := by
  have hvalue : (Evaluator.new ⟨9⟩).evalExpr handsOn
      (Env.empty.bind ⟨1⟩ (.deferred (.var ⟨2⟩))) [.literal (.int 5)] =
        some (.ok (.deferred (.var ⟨2⟩)), ⟨⟨9⟩, 4⟩) :=
    .trans (Evaluator.run_of_ends (n := 4) (by decide) rfl) rfl
  have hmismatch : (Call.evaluate (.binary .add (.literal (.int 1))
      (.literal (.bool true)))).run (.new ⟨9⟩) =
        some (.error (.fault (.binaryMismatch .add .integer .boolean)), ⟨⟨9⟩, 3⟩) :=
    .trans (Evaluator.run_of_ends (n := 3) (by decide) rfl) rfl
  obtain ⟨hpending, -, -, hfound⟩ := deferred_values_are_pending
  exact ⟨hvalue, (hpending _ _ _ _ _ _ hvalue).1, hmismatch, hfound _ _ _ _ hmismatch⟩

end WireLambda
