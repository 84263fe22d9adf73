import WireLambda.Proofs.Conversions

/-!
# Where a text is cut

`T` takes the characters of a text in front of some place and `D` drops them.  The place is the
same for both, `cutPosition`, so that what is taken (`firstPart`) and what is left (`lastPart`)
are together the text.  It is given by a signed count and never lies outside the text: a count
that goes too far, in either direction, names the end that is nearest.

A count is an integer of any size, while the length of a text is a 64-bit word.  The place is the
same if it is worked out in words (`toNat_cutPositionWord`).

The main result is `take_and_drop_cut_at_one_place`.
-/

namespace WireLambda

/-! ## The place in numbers -/

/-- The place that a count names, counted from the front. -/
theorem cast_cutPosition (n : Int) (length : Nat) :
    (cutPosition n length : Int) =
      if 0 ≤ n then min n (length : Int) else max (length + n : Int) 0 := by
  split
  · next h =>
    rw [cutPosition_of_nonneg h]
    omega
  · next h =>
    rw [cutPosition_of_neg (Int.not_le.1 h)]
    omega

/-- Where the first `m` of the first `n` characters end, the first `min m n` end. -/
theorem cutPosition_min {m n : Int} (hm : 0 ≤ m) (hn : 0 ≤ n) (length : Nat) :
    cutPosition m (cutPosition n length) = cutPosition (min m n) length := by
  have hmin : 0 ≤ min m n := by omega
  rw [cutPosition_of_nonneg hm, cutPosition_of_nonneg hn, cutPosition_of_nonneg hmin]
  omega

/-- Where `m` characters end that come after the first `n`, the first `m + n` end. -/
theorem cutPosition_add {m n : Int} (hm : 0 ≤ m) (hn : 0 ≤ n) (length : Nat) :
    cutPosition n length + cutPosition m (length - cutPosition n length) =
      cutPosition (m + n) length := by
  have hadd : 0 ≤ m + n := by omega
  rw [cutPosition_of_nonneg hm, cutPosition_of_nonneg hn, cutPosition_of_nonneg hadd]
  omega

/-! ## The two parts of a text -/

/-- The characters of a text in front of the place that a count names. -/
def firstPart (n : Int) (s : String) : String :=
  String.ofList (s.toList.take (cutPosition n s.toList.length))

/-- The characters of a text behind the place that a count names. -/
def lastPart (n : Int) (s : String) : String :=
  String.ofList (s.toList.drop (cutPosition n s.toList.length))

theorem BinaryOp.eval_take (n : Int) (s : String) :
    take.eval (.int n) (.str s) = .ok (.str (firstPart n s)) := rfl

theorem BinaryOp.eval_drop (n : Int) (s : String) :
    drop.eval (.int n) (.str s) = .ok (.str (lastPart n s)) := rfl

theorem BinaryOp.eval_concat (s t : String) :
    concat.eval (.str s) (.str t) = .ok (.str (s ++ t)) := rfl

theorem firstPart_append_lastPart (n : Int) (s : String) : firstPart n s ++ lastPart n s = s := by
  rw [firstPart, lastPart, ← String.ofList_append, List.take_append_drop, String.ofList_toList]

theorem length_firstPart (n : Int) (s : String) :
    (firstPart n s).length = cutPosition n s.length := by
  rw [firstPart, String.length_ofList, List.length_take, String.length_toList]
  exact Nat.min_eq_left (cutPosition_le n s.length)

/-- The first `m` of the first `n` characters are the first `min m n`. -/
theorem firstPart_firstPart {m n : Int} (hm : 0 ≤ m) (hn : 0 ≤ n) (s : String) :
    firstPart m (firstPart n s) = firstPart (min m n) s := by
  have hlength : (s.toList.take (cutPosition n s.toList.length)).length =
      cutPosition n s.toList.length := by
    rw [List.length_take]
    exact Nat.min_eq_left (cutPosition_le _ _)
  have hinside := cutPosition_le m (cutPosition n s.toList.length)
  rw [firstPart, firstPart, String.toList_ofList, hlength, List.take_take,
    Nat.min_eq_left hinside, cutPosition_min hm hn, firstPart]

/-- What is left without the first `n` and then without the first `m` characters is what is left
without the first `m + n`. -/
theorem lastPart_lastPart {m n : Int} (hm : 0 ≤ m) (hn : 0 ≤ n) (s : String) :
    lastPart m (lastPart n s) = lastPart (m + n) s := by
  rw [lastPart, lastPart, String.toList_ofList, List.length_drop, List.drop_drop,
    cutPosition_add hm hn, lastPart]

/-! ## Calls -/

/-- To finish the value of an operator takes one visit more than to finish its operands. -/
theorem Computes.finish_binary {env : Env} {stack : List Expr} {op : BinaryOp} {l r : Expr}
    {a b : Scalar} {n m : Nat} (hop : op ≠ .apply)
    (hl : Computes env stack (.finish l) (.ok (.scalar a)) n)
    (hr : Computes env stack (.finish r) (.ok (.scalar b)) m) :
    Computes env stack (.finish (.binary op l r)) ((op.eval a b).map .scalar) (n + m + 1) :=
  .finish_of_visit (.binary hop hl hr)

/-- An operator is applied to what its operands come to, on one more visit. -/
theorem Call.computes_binary {c : Expr → Call} (hc : AsksForValues c) {op : BinaryOp}
    {l r : Expr} {a b s : Scalar} {n m : Nat} (hop : op ≠ .apply)
    (hl : (c l).Computes (.ok (.scalar a)) n) (hr : (c r).Computes (.ok (.scalar b)) m)
    (hs : op.eval a b = .ok s) :
    (c (.binary op l r)).Computes (.ok (.scalar s)) (n + m + 1) := by
  have hvalue : (op.eval a b).map Value.scalar = .ok (.scalar s) := by rw [hs]; rfl
  rw [← hvalue]
  rcases hc with rfl | ⟨env, stack, rfl⟩
  · exact hl.finish_binary hop hr
  · cases hl with
    | forceDeferred hl =>
      cases hr with
      | forceDeferred hr => exact .forceDeferred (hl.finish_binary hop hr)

/-! ## The main result -/

/-- **Taking and dropping cut a text at one place.**  Let an expression end with the integer `n`
and another one with the text `s`, each under some limit.

* Taking and dropping do not fail.  What is taken and what is left, joined, is the text.
* If `n` is not negative, then `n` characters are taken, or all if there are fewer.  Otherwise all
  but `-n` characters are taken, or none if there are fewer.
* In 64-bit words the place comes out the same: cutting the count down to the length of the text
  leaves a word, and that is not larger than the length, from which it may be subtracted.
* If two counts `m` and `n` are not negative, then taking `m` of the first `n` characters is
  taking `min m n`, and dropping `n` and then `m` is dropping `m + n`. -/
theorem take_and_drop_cut_at_one_place {c : Expr → Call} (hc : Call.AsksForValues c)
    {count text : Expr} {limit limit' gas gas' : Nat} {n : Int} {s : String}
    (hcount : (c count).Ends limit (.ok (.scalar (.int n))) gas)
    (htext : (c text).Ends limit' (.ok (.scalar (.str s))) gas') :
    ((c (.binary .take count text)).ComesTo (.ok (.scalar (.str (firstPart n s))))
        (gas + gas' + 1) ∧
      (c (.binary .drop count text)).ComesTo (.ok (.scalar (.str (lastPart n s))))
        (gas + gas' + 1) ∧
      (c (.binary .concat (.binary .take count text) (.binary .drop count text))).ComesTo
        (.ok (.scalar (.str s))) (2 * (gas + gas') + 3)) ∧
    ((firstPart n s).length : Int) =
      (if 0 ≤ n then min n (s.length : Int) else max (s.length + n : Int) 0) ∧
    (∀ length : UInt64, (clamp n.natAbs length).toNat = min n.natAbs length.toNat ∧
      clamp n.natAbs length ≤ length ∧
      (cutPositionWord n length).toNat = cutPosition n length.toNat) ∧
    ∀ (count' both : Expr) (m : Int) (limit₁ limit₂ gas₁ gas₂ : Nat), 0 ≤ m → 0 ≤ n →
      (c count').Ends limit₁ (.ok (.scalar (.int m))) gas₁ →
      ((c both).Ends limit₂ (.ok (.scalar (.int (min m n)))) gas₂ → ∃ part,
        (c (.binary .take count' (.binary .take count text))).ComesTo
          (.ok (.scalar (.str part))) (gas₁ + (gas + gas' + 1) + 1) ∧
        (c (.binary .take both text)).ComesTo (.ok (.scalar (.str part))) (gas₂ + gas' + 1)) ∧
      ((c both).Ends limit₂ (.ok (.scalar (.int (m + n)))) gas₂ → ∃ part,
        (c (.binary .drop count' (.binary .drop count text))).ComesTo
          (.ok (.scalar (.str part))) (gas₁ + (gas + gas' + 1) + 1) ∧
        (c (.binary .drop both text)).ComesTo (.ok (.scalar (.str part)))
          (gas₂ + gas' + 1)) := by
  obtain ⟨-, hn⟩ := Call.ends_iff.1 hcount
  obtain ⟨-, hs⟩ := Call.ends_iff.1 htext
  have htaken := Call.computes_binary hc (by decide) hn hs (BinaryOp.eval_take n s)
  have hleft := Call.computes_binary hc (by decide) hn hs (BinaryOp.eval_drop n s)
  refine ⟨⟨Call.comesTo_of_computes htaken, Call.comesTo_of_computes hleft, ?_⟩, ?_,
    fun length => ⟨toNat_clamp _ _, clamp_le _ _, toNat_cutPositionWord n length⟩, ?_⟩
  · have hjoined := Call.computes_binary hc (by decide) htaken hleft (BinaryOp.eval_concat _ _)
    rw [firstPart_append_lastPart] at hjoined
    have hcost : gas + gas' + 1 + (gas + gas' + 1) + 1 = 2 * (gas + gas') + 3 := by omega
    exact hcost ▸ Call.comesTo_of_computes hjoined
  · rw [length_firstPart, cast_cutPosition]
  · intro count' both m limit₁ limit₂ gas₁ gas₂ hm hnonneg hcount'
    obtain ⟨-, hm'⟩ := Call.ends_iff.1 hcount'
    refine ⟨fun hboth => ?_, fun hboth => ?_⟩
    · obtain ⟨-, hmin⟩ := Call.ends_iff.1 hboth
      have htwice := Call.computes_binary hc (by decide) hm' htaken (BinaryOp.eval_take _ _)
      have honce := Call.computes_binary hc (by decide) hmin hs (BinaryOp.eval_take _ _)
      rw [firstPart_firstPart hm hnonneg] at htwice
      exact ⟨_, Call.comesTo_of_computes htwice, Call.comesTo_of_computes honce⟩
    · obtain ⟨-, hsum⟩ := Call.ends_iff.1 hboth
      have htwice := Call.computes_binary hc (by decide) hm' hleft (BinaryOp.eval_drop _ _)
      have honce := Call.computes_binary hc (by decide) hsum hs (BinaryOp.eval_drop _ _)
      rw [lastPart_lastPart hm hnonneg] at htwice
      exact ⟨_, Call.comesTo_of_computes htwice, Call.comesTo_of_computes honce⟩

/-- A text of three characters, of which one has two bytes and one has four. -/
def mixed : Expr := .literal (.str "aé😀")

/-- The last two characters of a text are two characters, whatever their bytes.  And to drop one
character and then more than a word can count is to drop them all, where an argument waits. -/
theorem take_and_drop_cut_at_one_place_multibyte :
    (Call.evaluate (.literal (.int (-2)))).Ends 1 (.ok (.scalar (.int (-2)))) 1 ∧
      (Call.evaluate mixed).Ends 1 (.ok (.scalar (.str "aé😀"))) 1 ∧
      (Call.evaluate (.binary .take (.literal (.int (-2))) mixed)).ComesTo
        (.ok (.scalar (.str "a"))) 3 ∧
      (Call.evaluate (.binary .drop (.literal (.int (-2))) mixed)).ComesTo
        (.ok (.scalar (.str "é😀"))) 3 ∧
      ∃ part,
        (Call.force (.deferred (.binary .drop (.literal (.int 1180591620717411303424))
          (.binary .drop (.literal (.int 1)) mixed))) .empty [mixed]).ComesTo
            (.ok (.scalar (.str part))) 5 ∧
        (Call.force (.deferred (.binary .drop (.literal (.int 1180591620717411303425)) mixed)) .empty
          [mixed]).ComesTo (.ok (.scalar (.str part))) 3 := by
  have hcount : (Call.evaluate (.literal (.int (-2)))).Ends 1 (.ok (.scalar (.int (-2)))) 1 :=
    ⟨0, rfl, rfl⟩
  have htext : (Call.evaluate mixed).Ends 1 (.ok (.scalar (.str "aé😀"))) 1 := ⟨0, rfl, rfl⟩
  have hwaits : ∀ s, (Call.force (.deferred (.literal s)) .empty [mixed]).Ends 1
      (.ok (.scalar s)) 1 := fun s => ⟨0, rfl, rfl⟩
  have hfirst : firstPart (-2) "aé😀" = "a" := by decide +kernel
  have hlast : lastPart (-2) "aé😀" = "é😀" := by decide +kernel
  obtain ⟨⟨htaken, hleft, -⟩, -⟩ := take_and_drop_cut_at_one_place (.inl rfl) hcount htext
  obtain ⟨-, -, -, htwice⟩ := take_and_drop_cut_at_one_place (.inr ⟨.empty, [mixed], rfl⟩)
    (hwaits (.int 1)) (hwaits (.str "aé😀"))
  rw [hfirst] at htaken
  rw [hlast] at hleft
  exact ⟨hcount, htext, htaken, hleft,
    (htwice _ _ 1180591620717411303424 1 1 1 1 (by decide) (by decide) (hwaits _)).2 (hwaits _)⟩

end WireLambda
