import WireLambda.Expr.Scope
import WireLambda.Proofs.Provenance
import WireLambda.Proofs.Spines
import WireLambda.Proofs.Weakening

/-!
# Functions that return a function

The projection `λ x y … . x`, applied to a function and then to other arguments, should be
that function: the other arguments are consumed by the lambdas of the projection, and
whatever is applied to the result is applied to the function.  `projection` is such an
application, with one argument `b` for the function, and the law would be that it gives
whatever `f b` gives.

The law does not hold in general.  When all lambdas of the projection have been entered,
the variable `x` is visited over the arguments that are really left, which is `b` alone.  If
`f` is a lambda, it is entered there, and all is well.  If it is not, the variable gives
`f` deferred, and the innermost application, the one to `f` itself, has it finished over the
arguments that *it* was visited with: those that the other lambdas of the projection have
consumed are still there, above `b`, and `f` is applied to them a second time.

`projection_gives_iff` says exactly when the law holds of a function and its arguments: if
there is no other argument, if the function is a lambda, or if it happens to give the same
over all of the arguments.  `projection_consumes_twice` is a program for which it fails.
-/

namespace WireLambda

/-- The projection to the first of some parameters, applied to a function, to an argument
for each of the other parameters, and to one argument more. -/
def projection (x : VarId) (f : Expr) (rest : List (VarId × Expr)) (b : Expr) : Expr :=
  (Expr.lambdas (x :: rest.map Prod.fst) (.var x)).applyAll (f :: (rest.map Prod.snd ++ [b]))

/-! ## What is left of the arguments -/

/-- The parameter of a projection, visited where all its lambdas have been entered. -/
theorem computes_var_iff {env : Env} {x : VarId} {f : Expr} {stack : List Expr}
    {w : Value} (hx : env.get? x = some (.deferred f)) :
    (∃ n, Computes env stack (.visit (.var x)) (.ok w) n) ↔
      (f.isLambda = true ∧ ∃ n, Computes env stack (.visit f) (.ok w) n) ∨
        (f.isLambda = false ∧ w = .deferred f) := by
  cases hf : f.isLambda with
  | true =>
    obtain ⟨y, body, rfl⟩ : ∃ y body, f = .lambda y body := by
      cases f with
      | lambda y body => exact ⟨y, body, rfl⟩
      | _ => exact absurd hf (by simp [Expr.isLambda])
    constructor
    · intro h
      rcases h with ⟨n, h⟩
      cases h with
      | bound h hv =>
        rw [hx] at h
        exact absurd (Option.some.inj h).symm (hv y body)
      | boundLambda h hl =>
        rw [hx] at h
        obtain ⟨rfl, rfl⟩ := Expr.lambda.inj (Value.deferred.inj (Option.some.inj h))
        exact .inl ⟨rfl, _, hl⟩
    · intro h
      rcases h with ⟨-, n, h⟩ | ⟨h, -⟩
      · exact ⟨n + 1, .boundLambda hx h⟩
      · exact absurd h (by simp)
  | false =>
    have hv : ∀ y body, Value.deferred f ≠ .deferred (.lambda y body) := by
      intro y body h
      rw [Value.deferred.inj h] at hf
      exact absurd hf (by simp [Expr.isLambda])
    have hvisit : Computes env stack (.visit (.var x)) (.ok (.deferred f)) 1 := .bound hx hv
    constructor
    · intro h
      rcases h with ⟨n, h⟩
      obtain ⟨heq, -⟩ := h.unique hvisit
      exact .inr ⟨rfl, Except.ok.inj heq⟩
    · intro h
      rcases h with ⟨h, -⟩ | ⟨-, rfl⟩
      · exact absurd h (by simp)
      · exact ⟨1, hvisit⟩

/-- What a program gives that applies a function to several arguments: the function is
visited over all of them, and the result is finished over all but the first. -/
theorem applyAll_gives_iff {f a : Expr} {args : List Expr} {s : Scalar} :
    (Call.evaluate (f.applyAll (a :: args))).Gives s ↔
      ∃ w, (∃ n, Computes .empty (a :: args) (.visit f) (.ok w) n) ∧
        ∃ k, Computes .empty args (.force w) (.ok (.scalar s)) k := by
  rw [Call.gives_iff]
  show (∃ n, Computes .empty [] (.finish ((Expr.apply f a).applyAll args)) _ n) ↔ _
  simp only [computes_finish_empty_iff]
  constructor
  · intro h
    rcases h with ⟨n, h⟩
    obtain ⟨k, -, hk⟩ := computes_applyAll_apply_iff.1 h
    rw [List.append_nil] at hk
    obtain ⟨w, i, j, -, hi, hj⟩ := computes_apply_ok_iff.1 hk
    exact ⟨w, ⟨i, hi⟩, j, hj⟩
  · intro h
    rcases h with ⟨w, ⟨i, hi⟩, j, hj⟩
    have hk : Computes .empty (args ++ []) (.visit (.apply f a)) (.ok (.scalar s))
        (i + j + 1) := by
      rw [List.append_nil]
      exact .apply hi hj
    exact ⟨i + j + 1 + args.length, computes_applyAll_apply_iff.2 ⟨_, rfl, hk⟩⟩

/-- What a projection gives: its variable is visited over the last argument, where all
parameters are bound, and the result is finished over all arguments but the function. -/
theorem projection_gives_iff_exists {x : VarId} {f b : Expr} {rest : List (VarId × Expr)}
    {s : Scalar} :
    (Call.evaluate (projection x f rest b)).Gives s ↔
      ∃ w, (∃ n, Computes (Env.empty.bindAll ((x, f) :: rest)) [b] (.visit (.var x))
          (.ok w) n) ∧
        ∃ k, Computes .empty (rest.map Prod.snd ++ [b]) (.force w) (.ok (.scalar s)) k := by
  have hlambdas : ∀ w, (∃ n, Computes .empty (f :: (rest.map Prod.snd ++ [b]))
        (.visit (.lambdas (x :: rest.map Prod.fst) (.var x))) (.ok w) n) ↔
      ∃ n, Computes (Env.empty.bindAll ((x, f) :: rest)) [b] (.visit (.var x)) (.ok w) n := by
    intro w
    constructor
    · intro h
      rcases h with ⟨n, h⟩
      obtain ⟨k, -, hk⟩ :=
        (@computes_lambdas_iff .empty [b] (.var x) ((x, f) :: rest) _ _).1 h
      exact ⟨k, hk⟩
    · intro h
      rcases h with ⟨n, h⟩
      exact ⟨_, (@computes_lambdas_iff .empty [b] (.var x) ((x, f) :: rest) _ _).2
        ⟨n, rfl, h⟩⟩
  rw [projection, applyAll_gives_iff]
  simp only [hlambdas]

/-! ## When the law holds -/

/-- **The exact condition of the projection law.**  If a function gives a scalar on an
argument, its projection gives the same exactly if no argument stands between the two, or
the function is a lambda, or it gives the same over all the arguments. -/
theorem projection_gives_iff {x : VarId} {f b : Expr} {rest : List (VarId × Expr)}
    {s : Scalar} (hdistinct : (x :: rest.map Prod.fst).Nodup)
    (h : (Call.evaluate (.apply f b)).Gives s) :
    (Call.evaluate (projection x f rest b)).Gives s ↔
      rest = [] ∨ f.isLambda = true ∨
        (Call.force (.deferred f) .empty (rest.map Prod.snd ++ [b])).Gives s := by
  have hbound : (Env.empty.bindAll ((x, f) :: rest)).get? x = some (.deferred f) :=
    Env.get?_bindAll (List.nodup_cons.1 hdistinct).1 .empty
  have hempty : ∀ env : Env, Env.empty.Extends env := Env.empty_extends
  rw [projection_gives_iff_exists, Call.gives_iff]
  simp only [computes_var_iff hbound]
  constructor
  · intro hprojection
    rcases hprojection with ⟨w, ⟨hf, -⟩ | ⟨-, rfl⟩, hw⟩
    · exact .inr (.inl hf)
    · exact .inr (.inr hw)
  · have happly : (Call.evaluate (f.applyAll [b])).Gives s := h
    obtain ⟨w, ⟨n, hn⟩, k, hk⟩ := applyAll_gives_iff.1 happly
    -- what was not missed is not missed with more arguments underneath
    have hforce : ∀ args, Computes .empty args (.force w) (.ok (.scalar s)) k := fun args =>
      hk.weaken (not_missed_ok _) (hempty _) args
    cases hf : f.isLambda with
    | true =>
      have hvisit := hn.weaken (not_missed_ok _)
        (hempty (Env.empty.bindAll ((x, f) :: rest))) []
      exact fun _ => ⟨w, .inl ⟨rfl, n, hvisit⟩, k, hforce _⟩
    | false =>
      intro hcases
      rcases hcases with rfl | hfalse | hgives
      · refine ⟨.deferred f, .inr ⟨rfl, rfl⟩, n + k, ?_⟩
        exact .forceDeferred (.finish hn (hforce [b]))
      · exact absurd hfalse (by simp)
      · exact ⟨.deferred f, .inr ⟨rfl, rfl⟩, hgives⟩

/-- A lambda is returned through a projection, past an argument that stands between. -/
theorem projection_gives_of_lambda :
    (VarId.mk 1 :: [(VarId.mk 2, Expr.literal (.int 1))].map Prod.fst).Nodup ∧
      (Call.evaluate (.apply (.lambda ⟨3⟩ (.var ⟨3⟩)) (.literal (.int 7)))).Gives (.int 7) ∧
      (Call.evaluate (projection ⟨1⟩ (.lambda ⟨3⟩ (.var ⟨3⟩)) [(⟨2⟩, .literal (.int 1))]
        (.literal (.int 7)))).Gives (.int 7) := by
  have hdistinct :
      (VarId.mk 1 :: [(VarId.mk 2, Expr.literal (.int 1))].map Prod.fst).Nodup := by decide
  have h : (Call.evaluate (.apply (.lambda ⟨3⟩ (.var ⟨3⟩)) (.literal (.int 7)))).Gives
      (.int 7) := ⟨4, _, rfl⟩
  exact ⟨hdistinct, h, (projection_gives_iff hdistinct h).2 (.inr (.inl rfl))⟩

/-- The second of two parameters, applied to one argument: a function, but not a lambda. -/
def secondOfZero : Expr := .apply (.lambda ⟨3⟩ (.lambda ⟨4⟩ (.var ⟨4⟩))) (.literal (.int 0))

/-- A partial application does not come through a projection as it is: the argument that
the other lambda of the projection has consumed is consumed again, and is the result. -/
theorem projection_consumes_twice :
    [VarId.mk 1, VarId.mk 2].Nodup ∧
      (secondOfZero.Closed ∧ (Expr.literal (.int 1)).Closed ∧ (Expr.literal (.int 7)).Closed) ∧
      (Call.evaluate (.apply secondOfZero (.literal (.int 7)))).Gives (.int 7) ∧
      (Call.evaluate (projection ⟨1⟩ secondOfZero [(⟨2⟩, .literal (.int 1))]
        (.literal (.int 7)))).Gives (.int 1) ∧
      ¬ (Call.evaluate (projection ⟨1⟩ secondOfZero [(⟨2⟩, .literal (.int 1))]
        (.literal (.int 7)))).Gives (.int 7) := by
  have hdirect : (Call.evaluate (.apply secondOfZero (.literal (.int 7)))).Gives (.int 7) :=
    ⟨10, _, rfl⟩
  have htwice : (Call.evaluate (projection ⟨1⟩ secondOfZero [(⟨2⟩, .literal (.int 1))]
      (.literal (.int 7)))).Gives (.int 1) := ⟨20, _, rfl⟩
  refine ⟨by decide, by decide, hdirect, htwice, fun h => ?_⟩
  exact absurd (htwice.unique h) (by decide)

end WireLambda
