import WireLambda.Eval.Moments
import WireLambda.Proofs.Metering
import WireLambda.Proofs.ReadBack
import WireLambda.Proofs.Reporting

/-!
# The letters of a run

The texts of a source are spelled with digits, and a digit stands for a letter of the alphabet.
No operator makes a text with other characters: concatenating, taking and dropping leave the
characters as they are, and a number is turned into a text through its digits.  So all texts
of a run are texts over the alphabet, and converting one of them cannot fail.

A scalar is `Lettered` if it is such a text or no text at all.  The property is carried over
to everything a run holds in store, up to the moments of the run.

* `Moment.Lettered.after`: what one moment keeps.
* `Moment.Lettered.of_reaches`: what a run keeps.
* `Run.lettered_of_built`: a tree that is built from a source has the property.
* `conversions_never_fail`: no run of a source reports a failed conversion.
-/

namespace WireLambda

open Base94

/-! ## Texts over the alphabet -/

/-- Whether a scalar is free of characters outside the alphabet. -/
def Scalar.Lettered : Scalar → Prop
  | bool _ | int _ => True
  | str s => ∀ c ∈ s.toList, c ∈ letters

theorem Base94.mem_letters_of_mem_textOf {ds : List Digit} {c : Char}
    (h : c ∈ (textOf ds).toList) : c ∈ letters := by
  rw [toList_textOf] at h
  obtain ⟨d, -, rfl⟩ := List.mem_map.1 h
  exact letter_mem d

/-- A text over the alphabet is a number. -/
theorem Base94.exists_decodeInteger_of_letters {t : String} (h : ∀ c ∈ t.toList, c ∈ letters) :
    ∃ body n, encodeString t = .ok body ∧ decodeInteger body = .ok n := by
  obtain ⟨body, hbody⟩ := exists_encodeString_iff.2 h
  obtain ⟨ds, -, rfl⟩ := map_eq_ok_iff.1 hbody
  exact ⟨_, _, hbody, decodeInteger_spell ds⟩

/-- Every number is a text over the alphabet. -/
theorem Base94.exists_decodeString_encodeInteger (n : Nat) :
    ∃ t, decodeString (encodeInteger n) = .ok t ∧ ∀ c ∈ t.toList, c ∈ letters :=
  ⟨_, decodeString_spell (Natural.digits n), fun _ h => mem_letters_of_mem_textOf h⟩

/-! ## Operators -/

/-- Whether an outcome is one of the given results, or a fault other than a failed
conversion. -/
def Clean {α : Type} (P : α → Prop) : Except Fault α → Prop
  | .ok a => P a
  | .error fault => ∀ e, fault ≠ .conversion e

/-- The value of a unary operator on a lettered scalar is lettered. -/
theorem UnaryOp.clean_eval {op : UnaryOp} {s : Scalar} (hs : s.Lettered) :
    Clean Scalar.Lettered (op.eval s) := by
  have hmismatch : Clean Scalar.Lettered (.error (.unaryMismatch op s.kind)) := by simp [Clean]
  cases op with
  | negate =>
    cases s with
    | int n => trivial
    | _ => exact hmismatch
  | not =>
    cases s with
    | bool b => trivial
    | _ => exact hmismatch
  | strToInt =>
    cases s with
    | str t =>
      obtain ⟨body, n, hbody, hn⟩ := exists_decodeInteger_of_letters hs
      rw [eval_strToInt, hbody, Except.bind, hn]
      trivial
    | _ => exact hmismatch
  | intToStr =>
    cases s with
    | int n =>
      obtain ⟨t, ht, hletters⟩ := exists_decodeString_encodeInteger n.toNat
      rw [eval_intToStr, ht]
      exact hletters
    | _ => exact hmismatch

/-- What a binary operator makes of lettered scalars is lettered. -/
theorem BinaryOp.lettered_of_eval {op : BinaryOp} {a b s : Scalar} (ha : a.Lettered)
    (hb : b.Lettered) (h : op.eval a b = .ok s) : s.Lettered := by
  unfold BinaryOp.eval at h
  split at h
  case h_13 t u =>
    obtain rfl := Except.ok.inj h
    intro c hc
    rw [String.toList_append] at hc
    rcases List.mem_append.1 hc with hc | hc
    · exact ha c hc
    · exact hb c hc
  case h_14 n t =>
    obtain rfl := Except.ok.inj h
    intro c hc
    rw [String.toList_ofList] at hc
    exact hb c (List.mem_of_mem_take hc)
  case h_15 n t =>
    obtain rfl := Except.ok.inj h
    intro c hc
    rw [String.toList_ofList] at hc
    exact hb c (List.mem_of_mem_drop hc)
  case h_4 | h_5 =>
    split at h
    · exact absurd h (by simp)
    · obtain rfl := Except.ok.inj h
      trivial
  case h_16 => exact absurd h (by simp)
  all_goals
    obtain rfl := Except.ok.inj h
    trivial

/-- The value of a binary operator on lettered scalars is lettered. -/
theorem BinaryOp.clean_eval {op : BinaryOp} {a b : Scalar} (ha : a.Lettered)
    (hb : b.Lettered) : Clean Scalar.Lettered (op.eval a b) := by
  cases heval : op.eval a b with
  | ok s => exact lettered_of_eval ha hb heval
  | error fault => rcases eval_eq_error heval with rfl | rfl <;> simp [Clean]

/-! ## Everything in store -/

namespace Expr

/-- Whether all literals of a tree are lettered. -/
def Lettered (e : Expr) : Prop := ∀ s ∈ e.literals, s.Lettered

theorem lettered_literal_iff {s : Scalar} : (literal s).Lettered ↔ s.Lettered :=
  List.forall_mem_singleton

theorem lettered_binary_iff {op : BinaryOp} {l r : Expr} :
    (binary op l r).Lettered ↔ l.Lettered ∧ r.Lettered := List.forall_mem_append

theorem lettered_ite_iff {c t e : Expr} :
    (ite c t e).Lettered ↔ c.Lettered ∧ t.Lettered ∧ e.Lettered := by
  rw [Lettered, literals, List.forall_mem_append, List.forall_mem_append, and_assoc]
  rfl

end Expr

def Value.Lettered : Value → Prop
  | scalar s => s.Lettered
  | deferred e => e.Lettered

def Env.Lettered (env : Env) : Prop := ∀ x v, env.get? x = some v → v.Lettered

def Use.Lettered : Use → Prop
  | result | unary _ => True
  | left _ r => r.Lettered
  | right _ l => l.Lettered
  | branch t e => t.Lettered ∧ e.Lettered

/-- Whether an environment and the arguments that wait in it are lettered. -/
structure LetteredPlace (env : Env) (stack : List Expr) : Prop where
  env : env.Lettered
  stack : ∀ a ∈ stack, a.Lettered

/-- Whether the work left over in a frame is lettered, and its place. -/
structure Frame.Lettered (f : Frame) : Prop where
  place : LetteredPlace f.env f.stack
  use : f.use.Lettered

theorem Env.lettered_empty : Env.empty.Lettered := by
  intro x v h
  exact absurd h (by simp)

/-- Binding a variable to a lettered value keeps an environment lettered. -/
theorem Env.Lettered.bind {env : Env} (h : env.Lettered) {v : Value} (hv : v.Lettered)
    (x : VarId) : (env.bind x v).Lettered := by
  intro y w hw
  rw [get?_bind] at hw
  split at hw
  · obtain rfl := Option.some.inj hw
    exact hv
  · exact h y w hw

namespace Moment

/-- Whether all texts that a run holds in store at a moment are texts over the alphabet: those
of the node and of the value, of the bindings, of the arguments that wait, and of the work
left over. -/
def Lettered : Moment → Prop
  | visit e env stack frames =>
      e.Lettered ∧ LetteredPlace env stack ∧ ∀ f ∈ frames, f.Lettered
  | give v frames => v.Lettered ∧ ∀ f ∈ frames, f.Lettered

/-- Whether what comes after a moment is lettered. -/
def LetteredAfter (r : Moment ⊕ Except Fault Value) : Prop :=
  r.elim Lettered (Clean Value.Lettered)

/-- A fault other than a failed conversion is a lettered end of a run. -/
theorem letteredAfter_fault {fault : Fault} (h : ∀ e, fault ≠ .conversion e) :
    LetteredAfter (.inr (.error fault)) := h

theorem letteredAfter_afterOperator {frames : List Frame} (hframes : ∀ f ∈ frames, f.Lettered)
    {o : Except Fault Scalar} (ho : Clean Scalar.Lettered o) :
    LetteredAfter (afterOperator frames o) := by
  cases o with
  | ok s => exact ⟨ho, hframes⟩
  | error fault => exact ho

theorem letteredAfter_afterVisit {e : Expr} {env : Env} {stack : List Expr}
    {frames : List Frame} (he : e.Lettered) (hplace : LetteredPlace env stack)
    (hframes : ∀ f ∈ frames, f.Lettered) : LetteredAfter (afterVisit env stack frames e) := by
  -- a part is visited in the same place, with one more frame that is left over
  have hpart : ∀ {use : Use} {e' : Expr} {stack' : List Expr}, use.Lettered → e'.Lettered →
      LetteredPlace env stack' →
      (visit e' env stack' (⟨env, stack, use⟩ :: frames)).Lettered := by
    intro use e' stack' huse he' hplace'
    exact ⟨he', hplace', List.forall_mem_cons.2 ⟨⟨hplace, huse⟩, hframes⟩⟩
  cases e with
  | literal s => exact ⟨Expr.lettered_literal_iff.1 he, hframes⟩
  | var x =>
    cases hx : env.get? x with
    | none =>
      rw [afterVisit_var_unbound stack frames hx]
      exact letteredAfter_fault (by simp)
    | some v =>
      have hv : v.Lettered := hplace.env x v hx
      by_cases hlambda : ∃ y body, v = .deferred (.lambda y body)
      · obtain ⟨y, body, rfl⟩ := hlambda
        rw [afterVisit_var_lambda stack frames hx]
        exact ⟨hv, hplace, hframes⟩
      · rw [afterVisit_var_value stack frames hx fun y body h => hlambda ⟨y, body, h⟩]
        exact ⟨hv, hframes⟩
  | unary op e => exact hpart trivial he hplace
  | binary op l r =>
    obtain ⟨hl, hr⟩ := Expr.lettered_binary_iff.1 he
    simp only [afterVisit]
    split
    · exact hpart trivial hl ⟨hplace.env, List.forall_mem_cons.2 ⟨hr, hplace.stack⟩⟩
    · exact hpart hr hl hplace
  | lambda x body =>
    cases stack with
    | nil => exact letteredAfter_fault (by simp)
    | cons a stack =>
      obtain ⟨ha, hstack⟩ := List.forall_mem_cons.1 hplace.stack
      have hv : (Value.deferred a).Lettered := ha
      exact ⟨he, ⟨hplace.env.bind hv x, hstack⟩, hframes⟩
  | ite c t e =>
    obtain ⟨hc, ht, he⟩ := Expr.lettered_ite_iff.1 he
    exact hpart ⟨ht, he⟩ hc hplace

theorem letteredAfter_afterScalar {s : Scalar} {f : Frame} {frames : List Frame}
    (hs : s.Lettered) (hf : f.Lettered) (hframes : ∀ f ∈ frames, f.Lettered) :
    LetteredAfter (afterScalar s f frames) := by
  obtain ⟨env, stack, use⟩ := f
  obtain ⟨hplace, huse⟩ := hf
  cases use with
  | result => exact ⟨hs, hframes⟩
  | unary op => exact letteredAfter_afterOperator hframes (UnaryOp.clean_eval hs)
  | left op r => exact ⟨huse, hplace, List.forall_mem_cons.2 ⟨⟨hplace, hs⟩, hframes⟩⟩
  | right op l => exact letteredAfter_afterOperator hframes (BinaryOp.clean_eval huse hs)
  | branch t e =>
    cases s with
    | bool b =>
      cases b with
      | true => exact ⟨huse.1, hplace, hframes⟩
      | false => exact ⟨huse.2, hplace, hframes⟩
    | _ => exact letteredAfter_fault (by simp)

/-- **One moment.**  What comes after a lettered moment is lettered. -/
theorem Lettered.after {m : Moment} (h : m.Lettered) : LetteredAfter m.after := by
  cases m with
  | visit e env stack frames => exact letteredAfter_afterVisit h.1 h.2.1 h.2.2
  | give v frames =>
    obtain ⟨hv, hframes⟩ := h
    cases frames with
    | nil => exact hv
    | cons f frames =>
      obtain ⟨hf, hrest⟩ := List.forall_mem_cons.1 hframes
      cases v with
      | scalar s => exact letteredAfter_afterScalar hv hf hrest
      | deferred e => exact ⟨hv, hf.place, hframes⟩

/-- **A run.**  All that comes after a lettered moment is lettered. -/
theorem Lettered.of_reaches {m m' : Moment} (h : m.Lettered) (hreach : m.Reaches m') :
    m'.Lettered := by
  refine hreach.induction h fun m m' hm hafter => ?_
  have hlettered := hm.after
  rwa [hafter] at hlettered

theorem lettered_start {e : Expr} (h : e.Lettered) : (start e).Lettered := by
  have hplace : LetteredPlace .empty [] := ⟨Env.lettered_empty, by simp⟩
  exact ⟨h, hplace, List.forall_mem_singleton.2 ⟨hplace, trivial⟩⟩

end Moment

/-- What the evaluation of a lettered tree comes to is lettered, or a fault other than a failed
conversion. -/
theorem Call.clean_of_computes {e : Expr} (h : e.Lettered) {outcome : Except Fault Value} {n : Nat}
    (hc : (Call.evaluate e).Computes outcome n) : Clean Value.Lettered outcome := by
  have hrun := Call.machine_run_of_computes hc 0
  obtain ⟨m, hreach, hlast⟩ := (Moment.exists_run_iff (m := .start e)).1 ⟨_, _, hrun⟩
  have hlettered := ((Moment.lettered_start h).of_reaches hreach).after
  rwa [hlast] at hlettered

/-- The evaluation of a lettered tree does not fail in a conversion. -/
theorem Call.not_computes_conversion {e : Expr} (h : e.Lettered) (c : CodecError) (n : Nat) :
    ¬ (Call.evaluate e).Computes (.error (.conversion c)) n :=
  fun hc => Call.clean_of_computes h hc c rfl

/-! ## Sources -/

/-- A text that is read from a source is a text over the alphabet. -/
theorem Token.lettered_of_ofWire {raw : String} {s : Scalar}
    (h : ofWire raw = .ok (.literal s)) : s.Lettered := by
  unfold ofWire at h
  split at h
  · exact absurd h (by simp)
  · next c body _ =>
    split at h
    · next i _ =>
      cases i with
      | truth => obtain rfl := Token.literal.inj (Except.ok.inj h); trivial
      | falsity => obtain rfl := Token.literal.inj (Except.ok.inj h); trivial
      | integer =>
        obtain ⟨n, -, hn⟩ := map_eq_ok_iff.1 h
        obtain rfl := Token.literal.inj hn
        trivial
      | text =>
        obtain ⟨t, ht, hs⟩ := map_eq_ok_iff.1 h
        obtain rfl := Token.literal.inj hs
        obtain ⟨ds, -, rfl⟩ := map_eq_ok_iff.1 (mapError_eq_ok_iff.1 ht)
        exact fun c hc => mem_letters_of_mem_textOf hc
      | conditional => exact absurd h (by simp [ofBody])
      | unary => obtain ⟨op, -, hop⟩ := map_eq_ok_iff.1 h; cases hop
      | binary => obtain ⟨op, -, hop⟩ := map_eq_ok_iff.1 h; cases hop
      | lambda => obtain ⟨x, -, hx⟩ := map_eq_ok_iff.1 h; cases hx
      | var => obtain ⟨x, -, hx⟩ := map_eq_ok_iff.1 h; cases hx
    · exact absurd h (by simp)

/-- A tree that is built from a source is lettered. -/
theorem Run.lettered_of_built {program source : String} {e : Expr} {leftover : Option Leftover}
    (h : built program source = .ok (e, leftover)) : e.Lettered := by
  obtain ⟨hstands, -⟩ := Cursor.readProgram_eq_ok_iff.1 h
  intro s hs
  rw [← Expr.filterMap_literal?_tokens] at hs
  obtain ⟨t, ht, hliteral⟩ := List.mem_filterMap.1 hs
  obtain rfl := Token.literal?_eq_some_iff.1 hliteral
  have hmem : Token.literal s ∈ (Lexed.ofSource program source).tokens.map (·.token) :=
    hstands.subset ht
  obtain ⟨located, hlocated, htoken⟩ := List.mem_map.1 hmem
  obtain ⟨raw, -, hraw⟩ := Lexed.exists_raw_of_mem_tokens hlocated
  rw [htoken] at hraw
  exact Token.lettered_of_ofWire hraw

/-! ## The main result -/

/-- **Conversions never fail.**  Under no limit does a run of a source text report a failed
conversion.  If the tokens of the source build a tree, then at every moment of the evaluation
of the tree all texts in store are texts over the alphabet, and so are the ones that operators
compare and give; a text that is turned into a number can be encoded, and decoded as a number;
and every number can be decoded as a text, which is one over the alphabet. -/
theorem conversions_never_fail (program source : String) :
    (∀ limits, ∀ result ∈ runWithLimits program source limits,
      ∀ r ∈ result.errors.stored, r.code ≠ .conversionFailed) ∧
    (∀ e leftover, Run.built program source = .ok (e, leftover) →
      ∀ m, (Moment.start e).Reaches m → m.Lettered ∧
        ∀ t env stack frames,
          m = .give (.scalar (.str t)) (⟨env, stack, .unary .strToInt⟩ :: frames) →
            ∃ body n, encodeString t = .ok body ∧ decodeInteger body = .ok n) ∧
    ∀ n : Int, ∃ t, decodeString (encodeInteger n.toNat) = .ok t ∧
      (Scalar.str t).Lettered := by
  refine ⟨?_, ?_, ?_⟩
  · intro limits result hresult r hr hcode
    obtain ⟨e, leftover, c, ev, hbuilt, hrun⟩ :=
      (Run.cause_of_mem_errors hresult hr).exists_conversion hcode
    have hlettered := Run.lettered_of_built hbuilt
    exact Call.run_ne_fault (c := .evaluate e) (Call.not_computes_conversion hlettered c) ev hrun
  · intro e leftover hbuilt m hreach
    have hlettered := Moment.lettered_start (Run.lettered_of_built hbuilt)
    have hm := hlettered.of_reaches hreach
    refine ⟨hm, ?_⟩
    rintro t env stack frames rfl
    exact exists_decodeInteger_of_letters hm.1
  · intro n
    exact exists_decodeString_encodeInteger n.toNat

/-- The number that two texts spell together. -/
def joinedNumber : Expr :=
  .unary .strToInt (.binary .concat (.literal (.str "g")) (.literal (.str "h")))

/-- The two texts are joined before the number is read, and the joined text is one over the
alphabet. -/
theorem conversions_never_fail_joined :
    Run.built "joined" "U# B. S' S(" = .ok (joinedNumber, none) ∧
      (Moment.start joinedNumber).Reaches
        (.give (.scalar (.str "gh")) [⟨.empty, [], .unary .strToInt⟩, ⟨.empty, [], .result⟩]) ∧
      ∃ body n, encodeString "gh" = .ok body ∧ decodeInteger body = .ok n := by
  have hwire : joinedNumber.toWire = .ok "U# B. S' S(" := by
    rw [Expr.toWire_eq]
    rfl
  have hbuilt : Run.built "joined" "U# B. S' S(" = .ok (joinedNumber, none) := by
    rw [Run.built, (Lexed.ofSource_of_toWire hwire "joined").2]
    exact Cursor.readProgram_tokens joinedNumber
  have hreach : (Moment.start joinedNumber).Reaches
      (.give (.scalar (.str "gh"))
        [⟨.empty, [], .unary .strToInt⟩, ⟨.empty, [], .result⟩]) :=
    .head rfl (.head rfl (.head rfl (.head rfl (.head rfl (.head rfl (.refl _))))))
  obtain ⟨-, hrun, -⟩ := conversions_never_fail "joined" "U# B. S' S("
  exact ⟨hbuilt, hreach, (hrun _ _ hbuilt _ hreach).2 _ _ _ _ rfl⟩

end WireLambda
