import WireLambda.Eval.Value

/-!
# Environments

An environment binds finitely many variables to values, each of them once: binding a
variable again replaces the value it had.  It is used only through `get?`, and `get?_bind`
says all that binding does; the order in which variables were bound cannot be seen.
-/

namespace WireLambda

/-- A finite map from variables to values. -/
structure Env where
  bindings : List (VarId × Value)
  distinct : (bindings.map Prod.fst).Nodup
  deriving DecidableEq

namespace Env

/-- The environment without bindings. -/
def empty : Env := ⟨[], List.nodup_nil⟩

/-- The value that a variable is bound to. -/
def get? (env : Env) (x : VarId) : Option Value :=
  (env.bindings.find? (·.1 == x)).map (·.2)

/-- Whether a variable is bound. -/
def contains (env : Env) (x : VarId) : Bool := (env.get? x).isSome

/-- The number of variables bound. -/
def size (env : Env) : Nat := env.bindings.length

/-- Whether no variable is bound. -/
def isEmpty (env : Env) : Bool := env.bindings.isEmpty

/-- The environment that binds `x` to `v`, and all other variables as before. -/
def bind (env : Env) (x : VarId) (v : Value) : Env where
  bindings := (x, v) :: env.bindings.filter (·.1 != x)
  distinct := by
    rw [List.map_cons, List.nodup_cons]
    constructor
    · simp
    · exact env.distinct.sublist (List.filter_sublist.map Prod.fst)

@[simp] theorem get?_empty (x : VarId) : empty.get? x = none := rfl

/-- What a variable is bound to after `x` was bound to `v`. -/
theorem get?_bind (env : Env) (x y : VarId) (v : Value) :
    (env.bind x v).get? y = if x = y then some v else env.get? y := by
  unfold get? bind
  by_cases h : x = y
  · subst h; simp
  · have hfind : ∀ bs : List (VarId × Value),
        (bs.filter (·.1 != x)).find? (·.1 == y) = bs.find? (·.1 == y) := by
      intro bs
      rw [List.find?_filter]
      congr 1
      funext b
      by_cases hb : b.1 = y
      · have hyx : y ≠ x := fun hx => h hx.symm
        simp [hb, hyx]
      · simp [hb]
    simp [h, hfind]

@[simp] theorem get?_bind_self (env : Env) (x : VarId) (v : Value) :
    (env.bind x v).get? x = some v := by
  rw [get?_bind, if_pos rfl]

theorem get?_bind_of_ne {x y : VarId} (h : x ≠ y) (env : Env) (v : Value) :
    (env.bind x v).get? y = env.get? y := by
  rw [get?_bind, if_neg h]

end Env

end WireLambda
