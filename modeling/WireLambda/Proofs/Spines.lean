import WireLambda.Proofs.Calls

/-!
# Functions of several arguments

Functions of several arguments are written with one lambda for each parameter and applied
with one application for each argument, the first argument innermost.  On the way down the
applications push all the arguments, the first one last and therefore on top, and the
lambdas pop them in order.

* `computes_lambdas_iff`: visiting lambdas over as many arguments is visiting their body
  with the parameters bound to the arguments, unevaluated, at one visit for each lambda.
* `computes_applyAll_apply_iff`: visiting an application to several arguments is visiting
  the application to the first of them over the others, at one visit for each of these.  All
  applications but the innermost only hand on what is finished already.
* `get?_bindAll_eq_find?`: a variable is bound to the argument of the last parameter with its
  name, if there is one.

What the innermost application finishes is what is left when all lambdas were entered, and
it finishes it with the arguments after the first still waiting there.
-/

namespace WireLambda

namespace Expr

/-- The application of a function to several arguments, one after the other. -/
def applyAll (f : Expr) (args : List Expr) : Expr := args.foldl apply f

/-- A body under several lambdas, the first one outermost. -/
def lambdas (xs : List VarId) (body : Expr) : Expr := xs.foldr lambda body

@[simp] theorem applyAll_nil (f : Expr) : f.applyAll [] = f := rfl

@[simp] theorem applyAll_cons (f a : Expr) (args : List Expr) :
    f.applyAll (a :: args) = (apply f a).applyAll args := rfl

@[simp] theorem lambdas_nil (body : Expr) : lambdas [] body = body := rfl

@[simp] theorem lambdas_cons (x : VarId) (xs : List VarId) (body : Expr) :
    lambdas (x :: xs) body = lambda x (lambdas xs body) := rfl

end Expr

namespace Env

/-- The environment after several parameters were bound to their arguments, in order. -/
def bindAll (env : Env) (binds : List (VarId × Expr)) : Env :=
  binds.foldl (fun env b => env.bind b.1 (.deferred b.2)) env

@[simp] theorem bindAll_nil (env : Env) : env.bindAll [] = env := rfl

@[simp] theorem bindAll_cons (env : Env) (x : VarId) (a : Expr)
    (binds : List (VarId × Expr)) :
    env.bindAll ((x, a) :: binds) = (env.bind x (.deferred a)).bindAll binds := rfl

/-- What a variable is bound to after several parameters were bound: the argument of the last
one with its name, or else what it was bound to before. -/
theorem get?_bindAll_eq_find? (env : Env) (binds : List (VarId × Expr)) (x : VarId) :
    (env.bindAll binds).get? x =
      ((binds.reverse.find? (·.1 == x)).map fun b => Value.deferred b.2).or (env.get? x) := by
  induction binds generalizing env with
  | nil => rfl
  | cons b binds ih =>
    obtain ⟨y, a⟩ := b
    rw [bindAll_cons, ih, List.reverse_cons, List.find?_append]
    cases binds.reverse.find? (·.1 == x) with
    | some c => rfl
    | none =>
      rw [get?_bind]
      by_cases h : y = x
      · simp [h]
      · simp [h]

/-- Binding other variables leaves a variable as it was. -/
theorem get?_bindAll_of_not_mem {binds : List (VarId × Expr)} {x : VarId}
    (h : x ∉ binds.map Prod.fst) (env : Env) : (env.bindAll binds).get? x = env.get? x := by
  have hnone : binds.reverse.find? (·.1 == x) = none := by
    rw [List.find?_eq_none]
    intro b hb hx
    exact h (List.mem_map.2 ⟨b, List.mem_reverse.1 hb, eq_of_beq hx⟩)
  rw [get?_bindAll_eq_find?, hnone]
  rfl

/-- A parameter is bound to its argument, if no later parameter has the same name. -/
theorem get?_bindAll {x : VarId} {a : Expr} {binds : List (VarId × Expr)}
    (h : x ∉ binds.map Prod.fst) (env : Env) :
    (env.bindAll ((x, a) :: binds)).get? x = some (.deferred a) := by
  rw [bindAll_cons, get?_bindAll_of_not_mem h, get?_bind_self]

end Env

/-! ## Lambdas -/

/-- A lambda over an argument binds it. -/
theorem computes_lambda_iff {env : Env} {stack : List Expr} {x : VarId} {a body : Expr}
    {outcome : Except Fault Value} {m : Nat} :
    Computes env (a :: stack) (.visit (.lambda x body)) outcome m ↔
      ∃ n, m = n + 1 ∧ Computes (env.bind x (.deferred a)) stack (.visit body) outcome n := by
  constructor
  · intro h
    cases h with
    | lambda hb => exact ⟨_, rfl, hb⟩
  · intro h
    rcases h with ⟨n, rfl, hb⟩
    exact .lambda hb

/-- Lambdas over as many arguments bind them in order. -/
theorem computes_lambdas_iff {env : Env} {stack : List Expr} {body : Expr}
    {binds : List (VarId × Expr)} {outcome : Except Fault Value} {m : Nat} :
    Computes env (binds.map Prod.snd ++ stack)
        (.visit (.lambdas (binds.map Prod.fst) body)) outcome m ↔
      ∃ n, m = n + binds.length ∧
        Computes (env.bindAll binds) stack (.visit body) outcome n := by
  induction binds generalizing env m with
  | nil =>
    refine ⟨fun h => ⟨m, rfl, h⟩, ?_⟩
    intro h
    rcases h with ⟨n, rfl, h⟩
    exact h
  | cons b binds ih =>
    obtain ⟨x, a⟩ := b
    simp only [List.map_cons, List.cons_append, Expr.lambdas_cons, List.length_cons,
      Env.bindAll_cons]
    rw [computes_lambda_iff]
    constructor
    · intro h
      rcases h with ⟨k, rfl, hk⟩
      obtain ⟨n, rfl, hn⟩ := ih.1 hk
      exact ⟨n, by omega, hn⟩
    · intro h
      rcases h with ⟨n, rfl, hn⟩
      exact ⟨n + binds.length, by omega, ih.2 ⟨n, rfl, hn⟩⟩

/-! ## Applications -/

/-- An application finishes what its function gives over the argument. -/
theorem computes_apply_ok_iff {env : Env} {stack : List Expr} {f a : Expr} {v : Value}
    {m : Nat} :
    Computes env stack (.visit (.apply f a)) (.ok v) m ↔
      ∃ w n k, m = n + k + 1 ∧ Computes env (a :: stack) (.visit f) (.ok w) n ∧
        Computes env stack (.force w) (.ok v) k := by
  constructor
  · intro h
    generalize ho : (Except.ok v : Except Fault Value) = o at h
    cases h with
    | binary hop hl hr => exact absurd rfl hop
    | leftFault hop hl => exact absurd rfl hop
    | rightFault hop hl hr => exact absurd rfl hop
    | apply hf hv => exact ⟨_, _, _, rfl, hf, ho ▸ hv⟩
    | applyFault hf => exact absurd ho (by simp)
  · intro h
    rcases h with ⟨w, n, k, rfl, hf, hv⟩
    exact .apply hf hv

/-- An application never gives a deferred value. -/
theorem Computes.apply_ne_deferred {env : Env} {stack : List Expr} {f a : Expr}
    {outcome : Except Fault Value} {n : Nat}
    (h : Computes env stack (.visit (.apply f a)) outcome n) (e : Expr) :
    outcome ≠ .ok (.deferred e) := by
  rintro rfl
  obtain ⟨w, n, k, -, -, hv⟩ := computes_apply_ok_iff.1 h
  exact hv.ne_deferred (by simp) e rfl

/-- An application visits its function, and is one visit more. -/
theorem Computes.function_of_apply {env : Env} {stack : List Expr} {f a : Expr}
    {outcome : Except Fault Value} {m : Nat}
    (h : Computes env stack (.visit (.apply f a)) outcome m) :
    ∃ outcome' n, n + 1 ≤ m ∧ Computes env (a :: stack) (.visit f) outcome' n := by
  cases h with
  | binary hop hl hr => exact absurd rfl hop
  | leftFault hop hl => exact absurd rfl hop
  | rightFault hop hl hr => exact absurd rfl hop
  | apply hf hv => exact ⟨_, _, by omega, hf⟩
  | applyFault hf => exact ⟨_, _, Nat.le_refl _, hf⟩

/-- What the function of an application gives finished, the application hands on. -/
theorem Computes.apply_of_finished {env : Env} {stack : List Expr} {f a : Expr}
    {outcome : Except Fault Value} {n : Nat}
    (h : Computes env (a :: stack) (.visit f) outcome n)
    (hfinished : ∀ d, outcome ≠ .ok (.deferred d)) :
    Computes env stack (.visit (.apply f a)) outcome (n + 1) := by
  cases outcome with
  | error fault => exact .applyFault h
  | ok v =>
    cases v with
    | deferred d => exact absurd rfl (hfinished d)
    | scalar s => exact .apply h .forceScalar

/-- An application whose function is an application hands on what that gives. -/
theorem computes_apply_apply_iff {env : Env} {stack : List Expr} {f a b : Expr}
    {outcome : Except Fault Value} {m : Nat} :
    Computes env stack (.visit (.apply (.apply f a) b)) outcome m ↔
      ∃ n, m = n + 1 ∧ Computes env (b :: stack) (.visit (.apply f a)) outcome n := by
  constructor
  · intro h
    obtain ⟨outcome', n, -, hf⟩ := h.function_of_apply
    obtain ⟨rfl, rfl⟩ := h.unique (hf.apply_of_finished hf.apply_ne_deferred)
    exact ⟨n, rfl, hf⟩
  · intro h
    rcases h with ⟨n, rfl, h⟩
    exact h.apply_of_finished h.apply_ne_deferred

/-- All applications but the innermost hand on what that gives. -/
theorem computes_applyAll_apply_iff {env : Env} {stack : List Expr} {f a : Expr}
    {args : List Expr} {outcome : Except Fault Value} {m : Nat} :
    Computes env stack (.visit ((Expr.apply f a).applyAll args)) outcome m ↔
      ∃ n, m = n + args.length ∧
        Computes env (args ++ stack) (.visit (.apply f a)) outcome n := by
  induction args generalizing f a m with
  | nil =>
    refine ⟨fun h => ⟨m, rfl, h⟩, ?_⟩
    intro h
    rcases h with ⟨n, rfl, h⟩
    exact h
  | cons b args ih =>
    rw [Expr.applyAll_cons, ih, List.length_cons, List.cons_append]
    constructor
    · intro h
      rcases h with ⟨k, rfl, hk⟩
      obtain ⟨n, rfl, hn⟩ := computes_apply_apply_iff.1 hk
      exact ⟨n, by omega, hn⟩
    · intro h
      rcases h with ⟨n, rfl, hn⟩
      exact ⟨n + 1, by omega, computes_apply_apply_iff.2 ⟨n, rfl, hn⟩⟩

end WireLambda
