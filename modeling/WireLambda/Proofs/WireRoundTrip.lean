import WireLambda.Proofs.Metering
import WireLambda.Proofs.ReadBack
import WireLambda.Proofs.Writable
import WireLambda.Run

/-!
# From a tree to its text and back

A tree that is written as a text passes through every stage of a run unharmed.  The text is
the written forms of the tokens with single spaces between them; each of these is one word,
so splitting gives them back (`Proofs.Splitting`); each is read as the token it was written
from (`Token.ofWire_toWire`), so lexing has nothing to report; the tokens are those of the
tree, so building them gives the tree and leaves nothing over; and a run of the text is
therefore the evaluation of the tree.

* `Lexed.ofSource_of_toWire`: lexing.
* `Cursor.readProgram_tokens`: building.
* `Run.ofSource_of_toWire`: the run.
* `toWire_round_trip`: all of it, with the exact condition for a tree to be written and the
  exact error of one that cannot be.
-/

namespace WireLambda

/-! ## Lexing -/

/-- Words that were written are read as the tokens they were written from. -/
theorem Token.map_ofWire_of_map_toWire {ts : List Token} {ws : List String}
    (h : ts.map toWire = ws.map .ok) : ws.map ofWire = ts.map .ok := by
  induction ts generalizing ws with
  | nil => rw [List.map_eq_nil_iff.1 h.symm]; rfl
  | cons t ts ih =>
    cases ws with
    | nil => exact absurd h (by simp)
    | cons w ws =>
      obtain ⟨ht, hts⟩ := List.cons.inj h
      rw [List.map_cons, List.map_cons, ofWire_toWire ht, ih hts]

namespace Source

/-- Splitting the text of a tree gives the written forms of its tokens. -/
theorem map_text_rawTokens_of_words {ws : List String} (h : ∀ w ∈ ws, IsWord w.toList) :
    (rawTokens (" ".intercalate ws)).map (·.text) = ws := by
  have hwords : ∀ cs ∈ ws.map String.toList, IsWord cs := by
    intro cs hcs
    obtain ⟨w, hw, rfl⟩ := List.mem_map.1 hcs
    exact h w hw
  have hspace : " ".toList = [' '] := rfl
  rw [rawTokens_eq, String.toList_intercalate, hspace,
    map_text_rawTokensFrom (laidOut_intercalate hwords), List.map_map]
  refine (List.map_congr_left fun w _ => ?_).trans (List.map_id ws)
  exact String.ofList_toList

end Source

namespace Lexed

/-- Raw tokens that all have a meaning are read without a report, each in its place. -/
theorem ofRawTokens_of_decodes {program : String} {d : Diagnostics} {raws : List RawToken}
    {ts : List Token} (hroom : d.total < Diagnostics.maxStored)
    (h : (raws.map (·.text)).map Token.ofWire = ts.map .ok) :
    (ofRawTokens program d raws).diagnostics = d ∧
      (ofRawTokens program d raws).tokens.map (·.token) = ts ∧
      (ofRawTokens program d raws).tokens.map (·.span) = raws.map (·.span) := by
  induction raws generalizing ts with
  | nil =>
    rw [List.map_nil, List.map_nil] at h
    rw [List.map_eq_nil_iff.1 h.symm]
    exact ⟨rfl, rfl, rfl⟩
  | cons raw raws ih =>
    cases ts with
    | nil => exact absurd h (by simp)
    | cons t ts =>
      obtain ⟨ht, hts⟩ := List.cons.inj h
      obtain ⟨hd, htokens, hspans⟩ := ih hts
      rw [ofRawTokens_ok hroom ht]
      exact ⟨hd, congrArg (t :: ·) htokens, congrArg (raw.span :: ·) hspans⟩

/-- **Lexing.**  The text of a tree has no bad token, and its tokens are those of the
tree. -/
theorem ofSource_of_toWire {e : Expr} {w : String} (h : e.toWire = .ok w) (program : String) :
    (ofSource program w).diagnostics = .empty ∧
      (ofSource program w).tokens.map (·.token) = e.tokens := by
  obtain ⟨ws, hws, rfl⟩ := map_eq_ok_iff.1 h
  have hmap : e.tokens.map Token.toWire = ws.map .ok := Expr.wireTokens_eq_ok_iff.1 hws
  have hwords : ∀ w ∈ ws, Source.IsWord w.toList := by
    intro w hw
    have hmem : Except.ok w ∈ e.tokens.map Token.toWire := by
      rw [hmap]
      exact List.mem_map_of_mem hw
    obtain ⟨t, -, ht⟩ := List.mem_map.1 hmem
    exact Token.isWord_of_toWire ht
  have hdecodes : ((Source.rawTokens (" ".intercalate ws)).map (·.text)).map Token.ofWire =
      e.tokens.map .ok := by
    rw [Source.map_text_rawTokens_of_words hwords]
    exact Token.map_ofWire_of_map_toWire hmap
  refine (ofRawTokens_of_decodes ?_ hdecodes).imp_right And.left
  decide

end Lexed

/-! ## Building -/

/-- **Building.**  The tokens of a tree build the tree, and none is left over. -/
theorem Cursor.readProgram_tokens (e : Expr) :
    (Cursor.start e.tokens).readProgram = .ok (e, none) := by
  have hleftover : leftoverAt e.tokens e.size = none := by
    rw [leftoverAt, e.length_tokens, if_pos (Nat.le_refl _)]
  exact readProgram_eq_ok_iff.2 ⟨List.prefix_rfl, hleftover.symm⟩

/-! ## Running -/

/-- A run result tells what an evaluation answered: the gas it used, and either its value or
one report with the code and the message of its error. -/
def RunResult.Tells (r : RunResult) (program : String)
    (answer : Except EvalError Value × Evaluator) : Prop :=
  r.gasUsed = answer.2.gasUsed ∧
    match answer.1 with
    | .ok v => ∃ s, v = .scalar s ∧ r.success = true ∧ r.value? = some s ∧ r.errors = .empty
    | .error err =>
        r.success = false ∧ r.value? = none ∧ ∃ report, r.errors = .single report ∧
          report.program = program ∧ report.code = err.code ∧ report.message = err.message

/-- Evaluating a program never answers with a deferred value. -/
theorem Evaluator.evaluate_ne_deferred (ev ev' : Evaluator) (e d : Expr) :
    ev.evaluate e ≠ some (.ok (.deferred d), ev') := by
  intro h
  obtain ⟨n, hn⟩ := @Call.computes_of_run (.evaluate e) ev (.ok (.deferred d)) ev' h
  exact Computes.ne_deferred hn (by simp [Call.task]) d rfl

namespace Run

/-- A run whose program was evaluated tells the answer. -/
theorem tells_ofAnswer {program : String} {leftover : Option Leftover} {e : Expr}
    {ev : Evaluator} {answer : Except EvalError Value × Evaluator}
    (h : ev.evaluate e = some answer) :
    (ofAnswer program leftover answer).result.Tells program answer := by
  refine ⟨rfl, ?_⟩
  obtain ⟨outcome, ev'⟩ := answer
  cases outcome with
  | error err => exact ⟨rfl, rfl, err.report program, rfl, rfl, rfl, rfl⟩
  | ok v =>
    cases v with
    | scalar s => exact ⟨s, rfl, rfl, rfl, rfl⟩
    | deferred d => exact absurd h (ev.evaluate_ne_deferred ev' e d)

/-- **Running.**  A run of the text of a tree is the evaluation of the tree, and leaves nothing
over. -/
theorem ofSource_of_toWire {e : Expr} {w : String} (h : e.toWire = .ok w) (program : String)
    (limits : Limits) :
    ofSource program w limits =
      ((Evaluator.new limits).evaluate e).map (ofAnswer program none) := by
  obtain ⟨hclean, htokens⟩ := Lexed.ofSource_of_toWire h program
  have hno : (Lexed.ofSource program w).diagnostics.hasErrors = false := by
    rw [hclean]
    rfl
  rw [ofSource, hno]
  show ofTokens program w limits (Lexed.ofSource program w).tokens = _
  rw [ofTokens, htokens, Cursor.readProgram_tokens]

end Run

/-- A run of the text of a tree tells what evaluating the tree answers, if that comes to an
answer. -/
theorem runWithLimits_of_toWire {e : Expr} {w : String} (h : e.toWire = .ok w)
    (program : String) (limits : Limits) :
    Option.Rel (RunResult.Tells · program ·) (runWithLimits program w limits)
      ((Evaluator.new limits).evaluate e) := by
  rw [runWithLimits, Run.ofSource_of_toWire h]
  cases hanswer : (Evaluator.new limits).evaluate e with
  | none => exact .none
  | some answer => exact .some (Run.tells_ofAnswer hanswer)

/-- A run of the text of a tree, under the default limits, gives the value that the tree has by the
rules, if they allow its cost. -/
theorem value?_run_of_toWire {e : Expr} {w : String} (h : e.toWire = .ok w) {s : Scalar} {n : Nat}
    (hc : (Call.evaluate e).Computes (.ok (.scalar s)) n)
    (hn : n ≤ Limits.default.gasLimit.toNat) (program : String) :
    (run program w).value? = some s := by
  have hanswer : (Evaluator.new .default).evaluate e =
      some (.ok (.scalar s), (Evaluator.new .default).spend n) :=
    Call.run_of_allowed hc (Evaluator.allows_new_iff.2 (.inl hn))
  have hrun : runWithLimits program w .default =
      some ⟨.ok s, ((Evaluator.new .default).spend n).gasUsed⟩ := by
    rw [runWithLimits, Run.ofSource_of_toWire h, hanswer]
    rfl
  rw [run_eq_iff.2 hrun]
  rfl

/-! ## The round trip -/

/-- **The round trip of whole programs.**  A tree can be written exactly when all its
literals can, and otherwise the error is that of the first literal in prefix order that
cannot.  The text of a tree lexes without errors to the tokens of the tree, these build the
tree and leave nothing over, and a run of the text under any limits tells what an unused
evaluator answers on the tree; it goes on for ever exactly if that does. -/
theorem toWire_round_trip (e : Expr) :
    ((∃ w, e.toWire = .ok w) ↔ ∀ s ∈ e.literals, s.Writable) ∧
    (∀ err, e.toWire = .error err ↔
      ∃ s, e.literals.find? (fun s => !decide s.Writable) = some s ∧ s.Refused err) ∧
    ∀ w, e.toWire = .ok w → ∀ program limits,
      (Lexed.ofSource program w).diagnostics = .empty ∧
      (Lexed.ofSource program w).tokens.map (·.token) = e.tokens ∧
      (Cursor.start ((Lexed.ofSource program w).tokens.map (·.token))).readProgram =
        .ok (e, none) ∧
      Option.Rel (RunResult.Tells · program ·) (runWithLimits program w limits)
        ((Evaluator.new limits).evaluate e) := by
  refine ⟨?_, fun err => ?_, fun w h program limits => ?_⟩
  · rw [← Expr.exists_wireTokens_iff]
    constructor
    · intro h
      rcases h with ⟨w, h⟩
      obtain ⟨ws, hws, -⟩ := map_eq_ok_iff.1 h
      exact ⟨ws, hws⟩
    · intro h
      rcases h with ⟨ws, hws⟩
      exact ⟨_, map_eq_ok_iff.2 ⟨ws, hws, rfl⟩⟩
  · rw [Expr.toWire, map_eq_error_iff, Expr.wireTokens_eq_error_iff]
  · obtain ⟨hclean, htokens⟩ := Lexed.ofSource_of_toWire h program
    refine ⟨hclean, htokens, ?_, runWithLimits_of_toWire h program limits⟩
    rw [htokens]
    exact Cursor.readProgram_tokens e

end WireLambda
