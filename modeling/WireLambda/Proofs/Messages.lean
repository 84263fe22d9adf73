import WireLambda.Proofs.Alphabet
import WireLambda.Proofs.Stages

/-!
# Messages

A message is a text that is sent as a source: the indicator of texts and the letters of the
message, as digits.  Whoever receives a source runs it and takes what its value shows.

Sending is the codec of texts alone (`encodeMessage`), and receiving is a whole run
(`decodeResponse`).  What was sent is the written form of a tree with one node, so the run gives
the message back (`decodeResponse_of_encodeMessage`).  In the other direction any source may be
received.  Whatever it computes, its value is a text over the alphabet or no text, by the
invariant of `Moment.Lettered`; and truth values and integers are shown with letters only
(`Scalar.mem_letters_of_mem_display`).  So what is received can always be sent.

The main result is `messages_round_trip`.
-/

namespace WireLambda

open Base94

/-! ## What values show -/

theorem Base94.mem_letters_of_isDigit {c : Char} (h : c.isDigit = true) : c ∈ letters := by
  have hdigits : ∀ k < 10, Char.ofNat (48 + k) ∈ letters := by decide
  have hbounds : 48 ≤ c.toNat ∧ c.toNat ≤ 57 := by
    rw [Char.isDigit, Bool.and_eq_true, decide_eq_true_eq, decide_eq_true_eq] at h
    exact h
  have hc : c = Char.ofNat (48 + (c.toNat - 48)) := by
    rw [Nat.add_sub_cancel' hbounds.1, Char.ofNat_toNat]
  rw [hc]
  exact hdigits _ (by omega)

theorem Base94.mem_letters_of_mem_repr {n : Nat} {c : Char} (h : c ∈ n.repr.toList) :
    c ∈ letters := by
  rw [Nat.toList_repr] at h
  exact mem_letters_of_isDigit (Nat.isDigit_of_mem_toDigits (by decide) (by decide) h)

/-- A lettered scalar is shown with letters of the alphabet. -/
theorem Scalar.mem_letters_of_mem_display {s : Scalar} (hs : s.Lettered) {c : Char}
    (h : c ∈ s.display.toList) : c ∈ letters := by
  cases s with
  | bool b =>
    have hshown : ∀ b, (bool b).display.toList ⊆ letters := by decide
    exact hshown b h
  | int n =>
    rw [display, Int.repr_eq_if] at h
    split at h
    · exact mem_letters_of_mem_repr h
    · rw [String.toList_append] at h
      rcases List.mem_append.1 h with h | h
      · obtain rfl := List.mem_singleton.1 h
        decide
      · exact mem_letters_of_mem_repr h
  | str t => exact hs c h

/-! ## Receiving -/

theorem evaluateSource_eq_ok_iff {source : String} {s : Scalar} :
    evaluateSource source = .ok s ↔ (run inlineProgram source).value? = some s := by
  rw [evaluateSource, RunResult.value?]
  cases (run inlineProgram source).outcome with
  | ok s' =>
    show Except.ok s' = .ok s ↔ some s' = some s
    rw [Except.ok.injEq, Option.some.injEq]
  | error d => exact iff_of_false (by intro h; cases h) (by intro h; cases h)

/-- The value of a source is lettered. -/
theorem Run.lettered_of_value {program source : String} {limits : Limits} {result : RunResult}
    (hresult : runWithLimits program source limits = some result) {s : Scalar}
    (h : result.value? = some s) : s.Lettered := by
  obtain ⟨r, rfl, hcourse⟩ := exists_course hresult
  obtain ⟨tree, leftover, ev, hbuilt, hanswer⟩ := hcourse.exists_answer h
  obtain ⟨n, hc⟩ := @Call.computes_of_run (.evaluate tree) _ (.ok (.scalar s)) ev hanswer
  exact Call.clean_of_computes (lettered_of_built hbuilt) hc

/-- What is received consists of letters of the alphabet. -/
theorem mem_letters_of_decodeResponse {body text : String} (h : decodeResponse body = .ok text)
    {c : Char} (hc : c ∈ text.toList) : c ∈ letters := by
  obtain ⟨s, hs, rfl⟩ := map_eq_ok_iff.1 h
  exact Scalar.mem_letters_of_mem_display
    (Run.lettered_of_value (runWithLimits_default _ _) (evaluateSource_eq_ok_iff.1 hs)) hc

/-! ## Sending -/

theorem exists_encodeMessage_iff {message : String} :
    (∃ body, encodeMessage message = .ok body) ↔ ∀ c ∈ message.toList, c ∈ letters := by
  rw [← exists_encodeString_iff]
  constructor
  · rintro ⟨body, h⟩
    obtain ⟨digits, hdigits, -⟩ := map_eq_ok_iff.1 h
    exact ⟨digits, hdigits⟩
  · rintro ⟨digits, hdigits⟩
    exact ⟨_, map_eq_ok_iff.2 ⟨digits, hdigits, rfl⟩⟩

/-- What is sent is the written form of the message as a literal. -/
theorem toWire_of_encodeMessage {message body : String} (h : encodeMessage message = .ok body) :
    (Expr.literal (.str message)).toWire = .ok body := by
  obtain ⟨digits, hdigits, rfl⟩ := map_eq_ok_iff.1 h
  have htoken : (Token.literal (.str message)).toWire = .ok ("S" ++ digits) := by
    rw [Token.toWire, Token.wireBody, hdigits]
    rfl
  have htokens : (Expr.literal (.str message)).wireTokens = .ok ["S" ++ digits] := by
    refine Expr.wireTokens_eq_ok_iff.2 ?_
    show [(Token.literal (.str message)).toWire] = [.ok ("S" ++ digits)]
    rw [htoken]
  rw [Expr.toWire, htokens]
  rfl

/-- What stands for a tree is received as the value that the tree has by the rules, if the default
limit allows its cost. -/
theorem decodeResponse_of_toWire {e : Expr} {w : String} (h : e.toWire = .ok w) {s : Scalar}
    {n : Nat} (hc : (Call.evaluate e).Computes (.ok (.scalar s)) n)
    (hn : n ≤ Limits.default.gasLimit.toNat) : decodeResponse w = .ok s.display := by
  rw [decodeResponse, evaluateSource_eq_ok_iff.2 (value?_run_of_toWire h hc hn inlineProgram)]
  rfl

/-- **There and back.**  What was sent is received. -/
theorem decodeResponse_of_encodeMessage {message body : String}
    (h : encodeMessage message = .ok body) : decodeResponse body = .ok message :=
  decodeResponse_of_toWire (toWire_of_encodeMessage h) (.finish .literal .forceScalar) (by decide)

/-! ## The main result -/

/-- **Messages.**  A text can be sent exactly if all its characters are letters of the alphabet,
and otherwise the first one that is not is reported, with its position.  Who receives what was
sent gets the text.

What is received from any source, be it a text, an integer or a truth value, can be sent, and is
received again. -/
theorem messages_round_trip :
    (∀ message, (∃ body, encodeMessage message = .ok body) ↔
      ∀ c ∈ message.toList, c ∈ letters) ∧
    (∀ message err, encodeMessage message = .error err ↔
      ∃ before c after, message.toList = before ++ c :: after ∧ (∀ b ∈ before, b ∈ letters) ∧
        c ∉ letters ∧ err = .notInAlphabet c before.length) ∧
    (∀ message body, encodeMessage message = .ok body → decodeResponse body = .ok message) ∧
    ∀ source text, decodeResponse source = .ok text →
      ∃ body, encodeMessage text = .ok body ∧ decodeResponse body = .ok text := by
  refine ⟨fun _ => exists_encodeMessage_iff, fun message err => ?_,
    fun _ _ => decodeResponse_of_encodeMessage, fun source text h => ?_⟩
  · rw [encodeMessage, map_eq_error_iff, encodeString_eq_error_iff]
  · obtain ⟨body, hbody⟩ :=
      exists_encodeMessage_iff.2 fun c hc => mem_letters_of_decodeResponse h hc
    exact ⟨body, hbody, decodeResponse_of_encodeMessage hbody⟩

/-- A message that begins with the letter of digit zero and ends with a line feed, and a negative
number that is received and sent on. -/
theorem messages_round_trip_negative :
    encodeMessage "a\n" = .ok "S!~" ∧ decodeResponse "S!~" = .ok "a\n" ∧
    decodeResponse "U- I\"" = .ok "-1" ∧
    ∃ body, encodeMessage "-1" = .ok body ∧ decodeResponse body = .ok "-1" := by
  obtain ⟨-, -, hsent, hreceived⟩ := messages_round_trip
  have hencode : encodeMessage "a\n" = .ok "S!~" := by decide +kernel
  have hnegate : Computes .empty [] (.visit (.unary .negate (.literal (.int 1))))
      (.ok (.scalar (.int (-1)))) 2 := .unary (.finish .literal .forceScalar)
  have hdecode : decodeResponse "U- I\"" = .ok "-1" :=
    decodeResponse_of_toWire (by rw [Expr.toWire_eq]; decide +kernel)
      (.finish hnegate .forceScalar) (by decide)
  exact ⟨hencode, hsent _ _ hencode, hdecode, hreceived _ _ hdecode⟩

end WireLambda
