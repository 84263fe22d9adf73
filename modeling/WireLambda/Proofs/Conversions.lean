import WireLambda.Proofs.Bodies
import WireLambda.Proofs.Metering

/-!
# Conversions undo each other

`$` writes a number in base 94 and reads the digits as letters; `#` writes a text as a body and
reads its digits as a number.  Both go through the digits, so one undoes the other as far as the
digits tell: a number is never written with leading zeros, so those of a text are lost, and a
negative number has no digits, so it becomes the empty text and then zero.

* `UnaryOp.eval_intToStr_eq` and `UnaryOp.eval_strToInt_textOf` say what the operators make of
  numbers and of texts over the alphabet, in digits.
* `Call.computes_unary`: an operator takes one visit more than its operand.
* `conversions_undo_each_other` puts this together, for programs and for expressions in any place.
-/

namespace WireLambda

open Base94

/-! ## Operators -/

namespace Base94

/-- The digit zero stands for the letter `a`, and no other digit does. -/
theorem letter_eq_a_iff (d : Digit) : letter d = 'a' ↔ d.val = 0 := by
  revert d
  decide +kernel

/-- The leading `a` of a text are its leading zeros. -/
theorem ofList_dropWhile_textOf (ds : List Digit) :
    String.ofList ((textOf ds).toList.dropWhile (· == 'a')) =
      textOf (ds.dropWhile fun d => d.val == 0) := by
  rw [toList_textOf, dropWhile_map_digits letter_eq_a_iff]
  rfl

/-- A text with characters outside the alphabet has a first one, and is refused for it. -/
theorem exists_isFirstOutside {text : String} (h : ∃ c ∈ text.toList, c ∉ letters) :
    ∃ c position, IsFirstOutside (· ∈ letters) text c position ∧
      encodeString text = .error (.notInAlphabet c position) := by
  obtain ⟨d, hmem, hd⟩ := h
  cases hbody : encodeString text with
  | ok body => exact absurd (exists_encodeString_iff.1 ⟨body, hbody⟩ d hmem) hd
  | error err =>
    obtain ⟨c, position, hfirst, rfl⟩ := encodeString_eq_error_iff_isFirstOutside.1 hbody
    exact ⟨c, position, hfirst, rfl⟩

end Base94

namespace UnaryOp

/-- A number becomes the text of its digits, and a negative one a text without digits. -/
theorem eval_intToStr_eq (n : Int) :
    intToStr.eval (.int n) = .ok (.str (textOf (Natural.digits n.toNat))) := by
  rw [eval_intToStr, encodeInteger, decodeString_spell]
  rfl

/-- The text of some digits becomes their number. -/
theorem eval_strToInt_textOf (ds : List Digit) :
    strToInt.eval (.str (textOf ds)) = .ok (.int (Natural.ofDigits ds)) := by
  rw [eval_strToInt, encodeString_textOf, Except.bind, decodeInteger_spell]
  rfl

theorem eval_strToInt_of_error {s : String} {err : CodecError} (h : encodeString s = .error err) :
    strToInt.eval (.str s) = .error (.conversion err) := by
  rw [eval_strToInt, h]
  rfl

end UnaryOp

/-! ## Calls -/

/-- To finish the value of an operator takes one visit more than to finish its operand. -/
theorem Computes.finish_unary {env : Env} {stack : List Expr} {e : Expr} {s : Scalar} {n : Nat}
    (h : Computes env stack (.finish e) (.ok (.scalar s)) n) (op : UnaryOp) :
    Computes env stack (.finish (.unary op e)) ((op.eval s).map .scalar) (n + 1) :=
  .finish_of_visit (.unary h)

namespace Call

/-- A way to ask for the finished values of expressions: as programs, or in some environment and
with some arguments waiting. -/
def AsksForValues (c : Expr → Call) : Prop :=
  c = evaluate ∨ ∃ env stack, c = fun e => force (.deferred e) env stack

/-- An operator is applied to what its operand comes to, on one more visit. -/
theorem computes_unary {c : Expr → Call} (hc : AsksForValues c) {e : Expr} {s : Scalar} {n : Nat}
    (h : (c e).Computes (.ok (.scalar s)) n) (op : UnaryOp) :
    (c (.unary op e)).Computes ((op.eval s).map .scalar) (n + 1) := by
  rcases hc with rfl | ⟨env, stack, rfl⟩
  · exact h.finish_unary op
  · cases h with
    | forceDeferred h => exact .forceDeferred (h.finish_unary op)

theorem computes_unary_of_ok {c : Expr → Call} (hc : AsksForValues c) {e : Expr} {s a : Scalar}
    {op : UnaryOp} {n : Nat} (h : (c e).Computes (.ok (.scalar s)) n) (hop : op.eval s = .ok a) :
    (c (.unary op e)).Computes (.ok (.scalar a)) (n + 1) := by
  have hunary := computes_unary hc h op
  rwa [hop] at hunary

end Call

/-- **Conversions undo each other.**  Let an expression end with a scalar under some limit, and have
used some gas.

* If it is a number, writing it as a text does not fail, and gives a text over the alphabet, which
  is empty if the number is negative.  Reading the text as a number again gives the number, or zero
  if the number is negative.
* If it is a text over the alphabet, reading it as a number and writing that as a text gives the
  text without its leading `a`, which are zeros.
* If it is a text with other characters, reading it as a number fails, and the first of them is
  reported with the number of characters before it.

Each operator takes one visit, so this is what comes out on every budget that allows as many more
visits as there are operators. -/
theorem conversions_undo_each_other {c : Expr → Call} (hc : Call.AsksForValues c) (e : Expr)
    (limit gas : Nat) :
    (∀ n : Int, (c e).Ends limit (.ok (.scalar (.int n))) gas →
      (∃ s, (c (.unary .intToStr e)).ComesTo (.ok (.scalar (.str s))) (gas + 1) ∧
        (∀ ch ∈ s.toList, ch ∈ letters) ∧ (n < 0 → s = "")) ∧
      (0 ≤ n → (c (.unary .strToInt (.unary .intToStr e))).ComesTo
        (.ok (.scalar (.int n))) (gas + 2)) ∧
      (n < 0 → (c (.unary .strToInt (.unary .intToStr e))).ComesTo
        (.ok (.scalar (.int 0))) (gas + 2))) ∧
    (∀ s : String, (c e).Ends limit (.ok (.scalar (.str s))) gas →
      ((∀ ch ∈ s.toList, ch ∈ letters) →
        (c (.unary .intToStr (.unary .strToInt e))).ComesTo
          (.ok (.scalar (.str (String.ofList (s.toList.dropWhile (· == 'a')))))) (gas + 2)) ∧
      ((∃ ch ∈ s.toList, ch ∉ letters) → ∃ ch position,
        IsFirstOutside (· ∈ letters) s ch position ∧
          (c (.unary .strToInt e)).ComesTo
            (.error (.conversion (.notInAlphabet ch position))) (gas + 1))) := by
  refine ⟨fun n hends => ?_, fun s hends => ⟨fun hletters => ?_, fun hforeign => ?_⟩⟩
  · obtain ⟨-, hn⟩ := Call.ends_iff.1 hends
    have htext := Call.computes_unary_of_ok hc hn (UnaryOp.eval_intToStr_eq n)
    have hnumber := Call.computes_unary_of_ok hc htext
      (UnaryOp.eval_strToInt_textOf (Natural.digits n.toNat))
    rw [Natural.ofDigits_digits] at hnumber
    refine ⟨⟨_, Call.comesTo_of_computes htext, exists_eq_textOf_iff.1 ⟨_, rfl⟩, fun hneg => ?_⟩,
      fun hnonneg => ?_, fun hneg => ?_⟩
    · rw [Int.toNat_of_nonpos (Int.le_of_lt hneg), Natural.digits_zero]
      rfl
    · rw [Int.toNat_of_nonneg hnonneg] at hnumber
      exact Call.comesTo_of_computes hnumber
    · rw [Int.toNat_of_nonpos (Int.le_of_lt hneg)] at hnumber
      exact Call.comesTo_of_computes hnumber
  · obtain ⟨-, hs⟩ := Call.ends_iff.1 hends
    obtain ⟨ds, rfl⟩ := exists_eq_textOf_iff.2 hletters
    have hnumber := Call.computes_unary_of_ok hc hs (UnaryOp.eval_strToInt_textOf ds)
    have htext := Call.computes_unary_of_ok hc hnumber (UnaryOp.eval_intToStr_eq _)
    rw [Int.toNat_natCast, Natural.digits_ofDigits, ← ofList_dropWhile_textOf] at htext
    exact Call.comesTo_of_computes htext
  · obtain ⟨-, hs⟩ := Call.ends_iff.1 hends
    obtain ⟨ch, position, hfirst, hrefused⟩ := exists_isFirstOutside hforeign
    have hfault := Call.computes_unary hc hs .strToInt
    rw [UnaryOp.eval_strToInt_of_error hrefused] at hfault
    exact ⟨ch, position, hfirst, Call.comesTo_of_computes hfault⟩

/-- The negative of the number 1337, as a program. -/
def negated : Expr := .unary .negate (.literal (.int 1337))

/-- A negative number becomes zero, the number of a text with two leading `a` becomes the text
without them, and a text with a letter of two bytes is refused for it: each as a program, and the
last where an argument waits. -/
theorem conversions_undo_each_other_leading :
    (Call.evaluate negated).Ends 2 (.ok (.scalar (.int (-1337)))) 2 ∧
      (Call.evaluate (.unary .strToInt (.unary .intToStr negated))).ComesTo
        (.ok (.scalar (.int 0))) 4 ∧
      (Call.evaluate (.unary .intToStr (.unary .strToInt (.literal (.str "aaba"))))).ComesTo
        (.ok (.scalar (.str "ba"))) 3 ∧
      ∃ ch position, IsFirstOutside (· ∈ letters) "olé\t" ch position ∧
        (Call.force (.deferred (.unary .strToInt (.literal (.str "olé\t")))) .empty
          [negated]).ComesTo (.error (.conversion (.notInAlphabet ch position))) 2 := by
  have hends : (Call.evaluate negated).Ends 2 (.ok (.scalar (.int (-1337)))) 2 := ⟨0, rfl, rfl⟩
  have htext : (Call.evaluate (.literal (.str "aaba"))).Ends 1 (.ok (.scalar (.str "aaba"))) 1 :=
    ⟨0, rfl, rfl⟩
  have hforeign : (Call.force (.deferred (.literal (.str "olé\t"))) .empty [negated]).Ends 1
      (.ok (.scalar (.str "olé\t"))) 1 := ⟨0, rfl, rfl⟩
  have hletters : "aaba".toList ⊆ letters := by decide +kernel
  have hprograms := conversions_undo_each_other (.inl rfl) negated 2 2
  have htexts := conversions_undo_each_other (.inl rfl) (.literal (.str "aaba")) 1 1
  have hplaces := conversions_undo_each_other (.inr ⟨.empty, [negated], rfl⟩)
    (.literal (.str "olé\t")) 1 1
  refine ⟨hends, (hprograms.1 _ hends).2.2 (by decide),
    (htexts.2 _ htext).1 fun ch hch => hletters hch, (hplaces.2 _ hforeign).2 ?_⟩
  exact ⟨'é', by decide +kernel, by decide +kernel⟩

end WireLambda
