import WireLambda.Proofs.Metering

/-!
# Programs without application

Only an application has an argument wait, and only a lambda that finds an argument binds a
variable.  So in the evaluation of a program without applications nothing is ever pending: a
lambda fails at once, and so does a variable.  What is left are literals, operators and
conditionals, and these evaluate each of their operands once, or not at all.

That is `Computes.exists_of_applyFree`: such a program comes to an outcome, in no more visits than
it has nodes, and in exactly as many if it is not cut short by a fault or a condition.  The
induction is on the program, since each visit goes to an operand and the place stays the same.

The main result is `applyFree_visits_no_node_twice`.
-/

namespace WireLambda

/-! ## Kinds of nodes that do not occur -/

namespace Expr

/-- Whether no node of a tree is a given token. -/
def Omits (t : Token) (e : Expr) : Prop := t ∉ e.tokens

instance (t : Token) (e : Expr) : Decidable (Omits t e) :=
  inferInstanceAs (Decidable (t ∉ e.tokens))

variable {t : Token}

theorem omits_unary_iff {op : UnaryOp} {e : Expr} :
    Omits t (.unary op e) ↔ t ≠ .unary op ∧ Omits t e := by
  simp only [Omits, tokens, List.mem_cons, not_or]

theorem omits_binary_iff {op : BinaryOp} {l r : Expr} :
    Omits t (.binary op l r) ↔ t ≠ .binary op ∧ Omits t l ∧ Omits t r := by
  simp only [Omits, tokens, List.mem_cons, List.mem_append, not_or]

theorem omits_ite_iff {c t' e : Expr} :
    Omits t (.ite c t' e) ↔ t ≠ .ite ∧ Omits t c ∧ Omits t t' ∧ Omits t e := by
  simp only [Omits, tokens, List.mem_cons, List.mem_append, not_or, and_assoc]

end Expr

/-! ## Evaluation -/

/-- **Each node at most once.**  A program without applications comes to an outcome in no more
visits than it has nodes.  If it comes to a value and has no conditionals, it has visited each of
its nodes. -/
theorem Computes.exists_of_applyFree {e : Expr} (h : e.Omits (.binary .apply)) :
    ∃ (value : Except Fault Scalar) (n : Nat),
      Computes .empty [] (.visit e) (value.map .scalar) n ∧ n ≤ e.size ∧
        (e.Omits .ite → ∀ s, value = .ok s → n = e.size) := by
  induction e with
  | literal s => exact ⟨.ok s, 1, .literal, Nat.le_refl 1, fun _ _ _ => rfl⟩
  | var x =>
    refine ⟨.error (.unboundVariable x), 1, .unbound rfl, Nat.le_refl 1, fun _ s hs => ?_⟩
    cases hs
  | lambda x body ih =>
    refine ⟨.error (.stackUnderflow x), 1, .underflow, Nat.le_add_left 1 _, fun _ s hs => ?_⟩
    cases hs
  | unary op e ih =>
    obtain ⟨-, he⟩ := Expr.omits_unary_iff.1 h
    obtain ⟨value, n, hn, hle, hall⟩ := ih he
    rw [Expr.size]
    cases value with
    | error fault =>
      refine ⟨.error fault, n + 1, .unaryFault hn.finish_of_visit, by omega, fun _ s hs => ?_⟩
      cases hs
    | ok a =>
      refine ⟨op.eval a, n + 1, .unary hn.finish_of_visit, by omega, fun hite s _ => ?_⟩
      rw [hall (Expr.omits_unary_iff.1 hite).2 a rfl]
  | binary op l r ihl ihr =>
    obtain ⟨hop, hl, hr⟩ := Expr.omits_binary_iff.1 h
    have hop : op ≠ .apply := fun heq => hop (congrArg Token.binary heq.symm)
    obtain ⟨left, n, hn, hnle, hnall⟩ := ihl hl
    obtain ⟨right, m, hm, hmle, hmall⟩ := ihr hr
    rw [Expr.size]
    cases left with
    | error fault =>
      refine ⟨.error fault, n + 1, .leftFault hop hn.finish_of_visit, by omega, fun _ s hs => ?_⟩
      cases hs
    | ok a =>
      cases right with
      | error fault =>
        refine ⟨.error fault, n + m + 1, .rightFault hop hn.finish_of_visit hm.finish_of_visit,
          by omega, fun _ s hs => ?_⟩
        cases hs
      | ok b =>
        refine ⟨op.eval a b, n + m + 1, .binary hop hn.finish_of_visit hm.finish_of_visit,
          by omega, fun hite s _ => ?_⟩
        obtain ⟨-, hl, hr⟩ := Expr.omits_binary_iff.1 hite
        rw [hnall hl a rfl, hmall hr b rfl]
  | ite c t e ihc iht ihe =>
    obtain ⟨-, hc, ht, he⟩ := Expr.omits_ite_iff.1 h
    have hite : ¬ (Expr.ite c t e).Omits .ite := fun h => (Expr.omits_ite_iff.1 h).1 rfl
    obtain ⟨condition, n, hn, hnle, -⟩ := ihc hc
    rw [Expr.size]
    cases condition with
    | error fault =>
      exact ⟨.error fault, n + 1, .conditionFault hn.finish_of_visit, by omega,
        fun h => absurd h hite⟩
    | ok a =>
      by_cases ha : ∃ b, a = .bool b
      · obtain ⟨b, rfl⟩ := ha
        cases b with
        | true =>
          obtain ⟨value, m, hm, hmle, -⟩ := iht ht
          exact ⟨value, n + m + 1, .thenBranch hn.finish_of_visit hm, by omega,
            fun h => absurd h hite⟩
        | false =>
          obtain ⟨value, m, hm, hmle, -⟩ := ihe he
          exact ⟨value, n + m + 1, .elseBranch hn.finish_of_visit hm, by omega,
            fun h => absurd h hite⟩
      · exact ⟨.error (.conditionMismatch a.kind), n + 1,
          .conditionMismatch (fun b hb => ha ⟨b, hb⟩) hn.finish_of_visit, by omega,
          fun h => absurd h hite⟩

/-! ## The main result -/

/-- **Without applications no node is visited twice.**  The evaluation of a program without
applications comes to an answer and uses no more gas than the program has nodes, whatever the
limit, so it does not run out of gas if the limit is the number of nodes or more.  If the program
has no conditionals either and its evaluation succeeds, the gas used is the number of nodes, as a
word; and the number itself, unless there is neither a limit nor a word for it. -/
theorem applyFree_visits_no_node_twice {e : Expr} (h : e.Omits (.binary .apply))
    (limits : Limits) :
    ∃ answer ev, (Evaluator.new limits).evaluate e = some (answer, ev) ∧
      ev.gasUsed.toNat ≤ e.nodeCount ∧
      (e.nodeCount ≤ limits.gasLimit.toNat → answer ≠ .error .gasExhausted) ∧
      (e.Omits .ite → ∀ v, answer = .ok v → ev.gasUsed = .ofNat e.nodeCount ∧
        (limits.gasLimit.toNat + 1 < UInt64.size ∨ e.nodeCount < UInt64.size →
          ev.gasUsed.toNat = e.nodeCount)) := by
  obtain ⟨value, n, hvisit, hle, hall⟩ := Computes.exists_of_applyFree h
  have hc : (Call.evaluate e).Computes (value.map .scalar) n := hvisit.finish_of_visit
  have hcount : ∀ m, (UInt64.ofNat m).toNat ≤ m := fun m => by
    rw [UInt64.toNat_ofNat']
    exact Nat.mod_le ..
  rw [Expr.nodeCount_eq_size]
  by_cases hallowed : (Evaluator.new limits).Allows n
  · refine ⟨_, _, Call.run_of_allowed hc hallowed, ?_, fun _ => ?_, fun hite v hv => ?_⟩
    · rw [Evaluator.spend_new]
      exact Nat.le_trans (hcount n) hle
    · exact mapError_fault_ne_gasExhausted _
    · obtain ⟨s, hs, -⟩ := map_eq_ok_iff.1 (mapError_eq_ok_iff.1 hv)
      rw [Evaluator.spend_new, ← hall hite s hs]
      refine ⟨rfl, fun hword => UInt64.toNat_ofNat_of_lt ?_⟩
      rw [Evaluator.allows_new_iff] at hallowed
      omega
  · have hbeyond : limits.gasLimit.toNat < n ∧ limits.gasLimit.toNat + 1 ≠ UInt64.size := by
      rw [Evaluator.allows_new_iff] at hallowed
      omega
    have hrun : (Call.evaluate e).run (.new limits) =
        some (.error .gasExhausted, (Evaluator.new limits).spend (limits.gasLimit.toNat + 1)) := by
      refine Call.run_of_refused ?_ ?_ fun outcome m hm => ?_
      · exact Evaluator.allows_new_iff.2 (.inl (Nat.le_refl _))
      · rw [Evaluator.allows_new_iff]
        omega
      · obtain ⟨-, rfl⟩ := Call.computes_unique hc hm
        exact hbeyond.1
    refine ⟨_, _, hrun, ?_, fun hsize => by omega, fun _ v hv => by cases hv⟩
    rw [Evaluator.spend_new]
    exact Nat.le_trans (hcount _) (by omega)

/-- A sum of a conditional, of which one branch would fail. -/
def sumOfBranch : Expr :=
  .binary .add (.literal (.int 2))
    (.ite (.binary .lt (.literal (.int 1)) (.literal (.int 2)))
      (.unary .negate (.literal (.int 3))) (.lambda ⟨1⟩ (.var ⟨1⟩)))

/-- Ten visits are enough for a program of ten nodes with a branch that is not taken, and a program
without branches takes as many visits as it has nodes. -/
theorem applyFree_visits_no_node_twice_sum :
    sumOfBranch.Omits (.binary .apply) ∧ sumOfBranch.nodeCount = 10 ∧
      (∃ answer ev, (Evaluator.new ⟨10⟩).evaluate sumOfBranch = some (answer, ev) ∧
        answer ≠ .error .gasExhausted) ∧
      ∃ ev, (Evaluator.new ⟨9⟩).evaluate (.unary .negate (.literal (.int 3))) =
          some (.ok (.scalar (.int (-3))), ev) ∧
        ev.gasUsed.toNat = (Expr.unary .negate (.literal (.int 3))).nodeCount := by
  have hsum : sumOfBranch.Omits (.binary .apply) := by decide
  have hcount : sumOfBranch.nodeCount = 10 := by
    rw [Expr.nodeCount_eq_size]
    rfl
  have hvalue : (Evaluator.new ⟨9⟩).evaluate (.unary .negate (.literal (.int 3))) =
      some (.ok (.scalar (.int (-3))), ⟨⟨9⟩, 2⟩) :=
    .trans (Evaluator.run_of_ends (n := 2) (by decide) rfl) rfl
  obtain ⟨answer, ev, hrun, -, hlimit, -⟩ := applyFree_visits_no_node_twice hsum ⟨10⟩
  obtain ⟨answer', ev', hrun', -, -, hall⟩ :=
    applyFree_visits_no_node_twice (e := .unary .negate (.literal (.int 3))) (by decide) ⟨9⟩
  obtain ⟨rfl, rfl⟩ := Prod.mk.inj (Option.some.inj (hvalue.symm.trans hrun'))
  obtain ⟨-, hnodes⟩ := hall (by decide) _ rfl
  exact ⟨hsum, hcount, ⟨answer, ev, hrun, hlimit (Nat.le_of_eq hcount)⟩, _, hvalue,
    hnodes (.inl (by decide))⟩

end WireLambda
