import WireLambda.Expr.Context
import WireLambda.Proofs.Metering
import WireLambda.Proofs.Provenance
import WireLambda.Proofs.Simulation

/-!
# Constant folding

A part of a program that evaluates to a scalar on its own may be replaced by that scalar,
wherever it stands.  That the part is evaluated on its own says a lot: nothing is bound and no
argument waits, so the visit of the part cannot have given anything deferred, and it goes the
same way in every other place (`Call.constant_of_gives`).  The part is a constant in the sense
of `Proofs.Simulation`, and so is the literal; the program before and the program after are
the same up to constants (`Context.alike_fill`).

The two directions of `constant_folding` are the two ways to read the simulation.  A visit of
the part takes at least the one visit of the literal, so folding makes nothing more expensive;
and it takes some number of visits, so undoing it makes nothing more expensive than that
number of times.
-/

namespace WireLambda

/-- What evaluates to a scalar on its own is a constant. -/
theorem Call.constant_of_gives {a : Expr} {v : Scalar} (h : (Call.evaluate a).Gives v) :
    ∃ n, 1 ≤ n ∧ a.Constant v n := by
  obtain ⟨n, hn⟩ := Call.gives_iff.1 h
  have hvisit := computes_finish_empty_iff.1 hn
  exact ⟨n, Machine.one_le_of_computes_visit hvisit, Expr.constant_of_computes hvisit⟩

variable {k : Nat}

/-- A context filled with two trees that are alike gives two trees that are alike. -/
theorem Expr.Context.alike_fill {a b : Expr} (h : a.Alike k b) (C : Expr.Context) :
    (C.fill a).Alike k (C.fill b) := by
  induction C with
  | place => exact h
  | unary op C ih => exact .unary ih
  | left op C r ih => exact .binary ih (.refl r)
  | right op l C ih => exact .binary (.refl l) ih
  | lambda x C ih => exact .lambda ih
  | condition C t e ih => exact .ite ih (.refl t) (.refl e)
  | thenBranch b C e ih => exact .ite (.refl b) ih (.refl e)
  | elseBranch b t C ih => exact .ite (.refl b) (.refl t) ih

/-- Programs that are alike come to the same outcome. -/
theorem Call.computes_of_alike (hk : 1 ≤ k) {e e' : Expr} (h : e.Alike k e')
    {outcome : Except Fault Value} {n : Nat} (hn : (Call.evaluate e).Computes outcome n) :
    ∃ m, (Call.evaluate e').Computes outcome m ∧ m ≤ k * n := by
  obtain ⟨outcome', m, hm, ho, hcost⟩ :=
    Computes.simulate hk hn Env.alike_empty .nil (.finish h)
  have hdone := Computes.ne_deferred hn (by simp [Call.task])
  obtain rfl := ho.eq_of_ne_deferred hdone
  exact ⟨m, hm, hcost⟩

/-- Wherever a call ends with an outcome, a call that comes to it in fewer visits does so as
well. -/
theorem Call.run_of_computes_le {c c' : Call} {outcome : Except Fault Value}
    (h : ∀ n, c.Computes outcome n → ∃ m ≤ n, c'.Computes outcome m) {ev ev' : Evaluator}
    (hrun : c.run ev = some (outcome.mapError .fault, ev')) :
    ∃ n m, m ≤ n ∧ ev' = ev.spend n ∧ ev.Allows n ∧
      c'.run ev = some (outcome.mapError .fault, ev.spend m) := by
  obtain ⟨n, hn, hallowed, hev⟩ := run_eq_outcome_iff.1 hrun
  obtain ⟨m, hle, hm⟩ := h n hn
  exact ⟨n, m, hle, hev, hallowed, run_of_allowed hm (hallowed.mono hle)⟩

/-- **Constant folding preserves meaning.**  Let a part of a program, anywhere in it, evaluate
to a scalar on its own, and put the literal of that scalar into its place.  An outcome of the
program under a limit is then the outcome of the folded program under that limit, with no more
gas used; an outcome of the folded program is the outcome of the program under some limit; and
an evaluator that ends the program with an outcome ends the folded one with it, in no more visits.
Unless its limit is the largest word, an unused evaluator counts no more gas then.  The part may
have free variables, as long as its evaluation does not meet them. -/
theorem constant_folding (C : Expr.Context) {a : Expr} {v : Scalar}
    (h : (Call.evaluate a).Gives v) (outcome : Except Fault Value) :
    (∀ limit gas, (Call.evaluate (C.fill a)).Ends limit outcome gas →
      ∃ gas' ≤ gas, (Call.evaluate (C.fill (.literal v))).Ends limit outcome gas') ∧
    (∀ limit gas, (Call.evaluate (C.fill (.literal v))).Ends limit outcome gas →
      ∃ limit' gas', (Call.evaluate (C.fill a)).Ends limit' outcome gas') ∧
    (∀ ev ev' : Evaluator, ev.evaluate (C.fill a) = some (outcome.mapError .fault, ev') →
      ∃ n m, m ≤ n ∧ ev' = ev.spend n ∧
        ev.evaluate (C.fill (.literal v)) = some (outcome.mapError .fault, ev.spend m)) ∧
    (∀ limits gas, limits.gasLimit.toNat + 1 < UInt64.size →
      (Evaluator.new limits).evaluate (C.fill a) =
        some (outcome.mapError .fault, ⟨limits, gas⟩) →
      ∃ gas' ≤ gas, (Evaluator.new limits).evaluate (C.fill (.literal v)) =
        some (outcome.mapError .fault, ⟨limits, gas'⟩)) := by
  obtain ⟨n, hn, ha⟩ := Call.constant_of_gives h
  have hv := Expr.constant_literal v
  have hfold : (C.fill a).Alike 1 (C.fill (.literal v)) :=
    C.alike_fill (.constant ha hv (by omega))
  have hunfold : (C.fill (.literal v)).Alike n (C.fill a) :=
    C.alike_fill (.constant hv ha (by omega))
  have hless : ∀ n, (Call.evaluate (C.fill a)).Computes outcome n →
      ∃ m ≤ n, (Call.evaluate (C.fill (.literal v))).Computes outcome m := by
    intro n hc
    obtain ⟨m, hm, hcost⟩ := Call.computes_of_alike (Nat.le_refl _) hfold hc
    exact ⟨m, by omega, hm⟩
  refine ⟨?_, ?_, ?_, ?_⟩
  · intro limit gas hends
    obtain ⟨hle, hc⟩ := Call.ends_iff.1 hends
    obtain ⟨m, hcost, hm⟩ := hless gas hc
    exact ⟨m, hcost, Call.ends_iff.2 ⟨Nat.le_trans hcost hle, hm⟩⟩
  · intro limit gas hends
    obtain ⟨-, hc⟩ := Call.ends_iff.1 hends
    obtain ⟨m, hm, -⟩ := Call.computes_of_alike hn hunfold hc
    exact ⟨m, m, Call.ends_iff.2 ⟨Nat.le_refl m, hm⟩⟩
  · intro ev ev' hrun
    obtain ⟨n, m, hle, hev, -, hrun'⟩ :=
      Call.run_of_computes_le (c := .evaluate (C.fill a)) hless hrun
    exact ⟨n, m, hle, hev, hrun'⟩
  · intro limits gas hword hrun
    obtain ⟨n, m, hle, hev, hallowed, hrun'⟩ :=
      Call.run_of_computes_le (c := .evaluate (C.fill a)) hless hrun
    rw [Evaluator.allows_new_iff] at hallowed
    refine ⟨((Evaluator.new limits).spend m).gasUsed, ?_, hrun'⟩
    obtain rfl : gas = ((Evaluator.new limits).spend n).gasUsed := congrArg Evaluator.gasUsed hev
    rw [UInt64.le_iff_toNat_le, Evaluator.toNat_gasUsed_new limits (by omega),
      Evaluator.toNat_gasUsed_new limits (by omega)]
    exact hle

/-- A function that adds its argument to itself. -/
def double : Expr := .lambda ⟨1⟩ (.binary .add (.var ⟨1⟩) (.var ⟨1⟩))

/-- The sum of one and two. -/
def oneAndTwo : Expr := .binary .add (.literal (.int 1)) (.literal (.int 2))

/-- An argument that is evaluated twice, in eleven visits of the whole: folded, it gives the same
in no more. -/
theorem constant_folding_argument :
    (Call.evaluate oneAndTwo).Gives (.int 3) ∧
      (Call.evaluate (.apply double oneAndTwo)).Ends 11 (.ok (.scalar (.int 6))) 11 ∧
      ∃ gas ≤ 11, (Call.evaluate (.apply double (.literal (.int 3)))).Ends 11
        (.ok (.scalar (.int 6))) gas := by
  have hgives : (Call.evaluate oneAndTwo).Gives (.int 3) := ⟨3, 0, rfl⟩
  have hends : (Call.evaluate (.apply double oneAndTwo)).Ends 11 (.ok (.scalar (.int 6))) 11 :=
    ⟨0, rfl, rfl⟩
  have hfolded := constant_folding (.right .apply double .place) hgives (.ok (.scalar (.int 6)))
  exact ⟨hgives, hends, hfolded.1 11 11 hends⟩

end WireLambda
