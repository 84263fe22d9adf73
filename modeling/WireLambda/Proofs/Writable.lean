import WireLambda.Expr
import WireLambda.Outcome
import WireLambda.Proofs.Splitting

/-!
# Which programs can be written

Every node of a tree has a written form except some literals: a negative integer has no
digits, and a text may hold a character outside the alphabet.  `Scalar.Writable` says which
literals can be written, and `Scalar.Refused` what is wrong with the others.

* `Expr.exists_wireTokens_iff`: a tree can be written exactly when all of its literals can.
* `Expr.wireTokens_eq_error_iff`: otherwise the error is that of the first literal, in
  prefix order, that cannot.
* `Token.isWord_of_toWire`: whatever a token holds, its written form is one word.  A text
  may hold spaces and line feeds, but these are letters, and letters are written as digits.
-/

namespace WireLambda

namespace Base94

/-! ## Texts over the alphabet -/

/-- A text that cannot be encoded has a first character outside the alphabet, and that
character is reported, with its position. -/
theorem encodeString_eq_error_iff {text : String} {err : CodecError} :
    encodeString text = .error err ↔
      ∃ before c after, text.toList = before ++ c :: after ∧ (∀ b ∈ before, b ∈ letters) ∧
        c ∉ letters ∧ err = .notInAlphabet c before.length := by
  have hletter : ∀ c, letter? c ≠ none ↔ c ∈ letters := fun c => by
    rw [ne_eq, letter?_eq_none_iff, Classical.not_not]
  rw [encodeString, map_eq_error_iff, textDigits, readEach_eq_error_iff]
  simp only [hletter, letter?_eq_none_iff, Nat.zero_add]

/-- A text can be encoded exactly when all its characters are letters. -/
theorem exists_encodeString_iff {text : String} :
    (∃ body, encodeString text = .ok body) ↔ ∀ c ∈ text.toList, c ∈ letters := by
  constructor
  · rintro ⟨body, h⟩ c hc
    obtain ⟨ds, hds, -⟩ := map_eq_ok_iff.1 h
    obtain rfl := textDigits_eq_ok_iff.1 hds
    rw [toList_textOf] at hc
    obtain ⟨d, -, rfl⟩ := List.mem_map.1 hc
    exact letter_mem d
  · intro h
    cases hb : encodeString text with
    | ok body => exact ⟨body, rfl⟩
    | error e =>
      obtain ⟨before, c, after, htext, -, hc, -⟩ := encodeString_eq_error_iff.1 hb
      exact absurd (h c (by rw [htext]; simp)) hc

/-! ## Digits are no separators -/

theorem isSeparator_toChar (d : Digit) : Source.isSeparator d.toChar = false := by
  revert d
  decide

theorem isSeparator_of_mem_spell {ds : List Digit} {c : Char} (h : c ∈ (spell ds).toList) :
    Source.isSeparator c = false := by
  rw [toList_spell] at h
  obtain ⟨d, -, rfl⟩ := List.mem_map.1 h
  exact isSeparator_toChar d

end Base94

open Base94

namespace Scalar

/-- Whether a literal has a written form. -/
def Writable : Scalar → Prop
  | bool _ => True
  | int n => 0 ≤ n
  | str s => ∀ c ∈ s.toList, c ∈ letters

instance : DecidablePred Writable
  | bool _ => inferInstanceAs (Decidable True)
  | int n => inferInstanceAs (Decidable (0 ≤ n))
  | str s => inferInstanceAs (Decidable (∀ c ∈ s.toList, c ∈ letters))

/-- What is wrong with a literal that has no written form. -/
inductive Refused : Scalar → EncodeError → Prop where
  | negative {n : Int} (hn : n < 0) : Refused (int n) (.negativeInteger n)
  /-- The character is the first one of the text that is no letter. -/
  | foreign {s : String} {before after : List Char} {c : Char}
      (hs : s.toList = before ++ c :: after) (hbefore : ∀ b ∈ before, b ∈ letters)
      (hc : c ∉ letters) : Refused (str s) (.codec (.notInAlphabet c before.length))

end Scalar

namespace Token

/-! ## Tokens -/

/-- The literal that a token is, if it is one. -/
def literal? : Token → Option Scalar
  | literal s => some s
  | _ => none

theorem literal?_eq_some_iff {t : Token} {s : Scalar} : t.literal? = some s ↔ t = literal s := by
  cases t <;> simp [literal?]

theorem exists_toWire_of_literal?_eq_none {t : Token} (h : t.literal? = none) :
    ∃ w, t.toWire = .ok w := by
  cases t with
  | literal s => exact absurd h (by simp [literal?])
  | _ => exact ⟨_, rfl⟩

theorem toWire_literal_eq_error_iff {s : Scalar} {err : EncodeError} :
    (literal s).toWire = .error err ↔ s.Refused err := by
  rw [toWire, map_eq_error_iff]
  cases s with
  | bool b =>
    refine ⟨fun h => ?_, fun h => nomatch h⟩
    exact absurd h (by simp [wireBody])
  | int n =>
    by_cases hn : n < 0
    · rw [wireBody, if_pos hn]
      constructor
      · intro h
        obtain rfl := Except.error.inj h
        exact .negative hn
      · rintro ⟨⟩
        rfl
    · rw [wireBody, if_neg hn]
      constructor
      · intro h
        exact absurd h (by simp)
      · intro h
        rcases h with ⟨hneg⟩
        exact absurd hneg hn
  | str s =>
    rw [wireBody, mapError_eq_error_iff]
    constructor
    · intro h
      rcases h with ⟨e, he, rfl⟩
      obtain ⟨before, c, after, hs, hbefore, hc, rfl⟩ := encodeString_eq_error_iff.1 he
      exact .foreign hs hbefore hc
    · intro h
      cases h with
      | foreign hs hbefore hc =>
        exact ⟨_, encodeString_eq_error_iff.2 ⟨_, _, _, hs, hbefore, hc, rfl⟩, rfl⟩

theorem exists_toWire_literal_iff {s : Scalar} :
    (∃ w, (literal s).toWire = .ok w) ↔ s.Writable := by
  have hbody : (∃ w, (literal s).toWire = .ok w) ↔ ∃ b, (literal s).wireBody = .ok b := by
    constructor
    · intro h
      rcases h with ⟨w, h⟩
      obtain ⟨b, hb, -⟩ := map_eq_ok_iff.1 h
      exact ⟨b, hb⟩
    · intro h
      rcases h with ⟨b, hb⟩
      exact ⟨_, map_eq_ok_iff.2 ⟨b, hb, rfl⟩⟩
  rw [hbody]
  cases s with
  | bool b => exact ⟨fun _ => trivial, fun _ => ⟨_, rfl⟩⟩
  | int n =>
    show _ ↔ 0 ≤ n
    by_cases hn : n < 0
    · rw [wireBody, if_pos hn]
      refine ⟨?_, fun h => absurd hn (Int.not_lt.2 h)⟩
      intro h
      rcases h with ⟨b, h⟩
      exact absurd h (by simp)
    · rw [wireBody, if_neg hn]
      exact ⟨fun _ => Int.not_lt.1 hn, fun _ => ⟨_, rfl⟩⟩
  | str s =>
    show _ ↔ ∀ c ∈ s.toList, c ∈ letters
    rw [← exists_encodeString_iff, wireBody]
    simp only [mapError_eq_ok_iff]

/-- The body of a token is spelled with digits, or is the symbol of an operator. -/
theorem isSeparator_of_mem_wireBody {t : Token} {body : String} {c : Char}
    (h : t.wireBody = .ok body) (hc : c ∈ body.toList) : Source.isSeparator c = false := by
  cases t with
  | literal s =>
    cases s with
    | bool b =>
      obtain rfl := Except.ok.inj h
      exact absurd hc (by simp)
    | int n =>
      rw [wireBody] at h
      split at h
      · exact absurd h (by simp)
      · obtain rfl := Except.ok.inj h
        exact isSeparator_of_mem_spell hc
    | str s =>
      have hencode : encodeString s = .ok body := mapError_eq_ok_iff.1 h
      obtain ⟨ds, -, rfl⟩ := map_eq_ok_iff.1 hencode
      exact isSeparator_of_mem_spell hc
  | unary op =>
    obtain rfl := Except.ok.inj h
    obtain rfl : c = op.symbol := by simpa using hc
    cases op <;> decide
  | binary op =>
    obtain rfl := Except.ok.inj h
    obtain rfl : c = op.symbol := by simpa using hc
    cases op <;> decide
  | ite =>
    obtain rfl := Except.ok.inj h
    exact absurd hc (by simp)
  | lambda x =>
    obtain rfl := Except.ok.inj h
    exact isSeparator_of_mem_spell hc
  | var x =>
    obtain rfl := Except.ok.inj h
    exact isSeparator_of_mem_spell hc

/-- **Words.**  The written form of a token is not empty and holds no separator. -/
theorem isWord_of_toWire {t : Token} {w : String} (h : t.toWire = .ok w) :
    Source.IsWord w.toList := by
  obtain ⟨body, hbody, rfl⟩ := map_eq_ok_iff.1 h
  have hlist : (String.singleton t.indicator.toChar ++ body).toList =
      t.indicator.toChar :: body.toList := by simp [String.toList_append]
  rw [hlist]
  refine ⟨List.cons_ne_nil _ _, fun c hc => ?_⟩
  rcases List.mem_cons.1 hc with rfl | hc
  · cases t.indicator <;> decide
  · exact isSeparator_of_mem_wireBody hbody hc

/-! ## Sequences of tokens -/

/-- A sequence of tokens is written as the written forms of its tokens. -/
theorem mapM_toWire_eq_ok_iff {ts : List Token} {ws : List String} :
    ts.mapM toWire = .ok ws ↔ ts.map toWire = ws.map .ok := by
  induction ts generalizing ws with
  | nil => cases ws <;> simp [pure, Except.pure]
  | cons t ts ih =>
    rw [List.mapM_cons]
    cases ht : t.toWire with
    | error e => cases ws <;> simp [bind, Except.bind, ht]
    | ok w =>
      cases hts : ts.mapM toWire with
      | error e =>
        have hne : ∀ ws : List String, ts.map toWire ≠ ws.map .ok := fun ws h => by
          have hok := ih.2 h
          rw [hts] at hok
          exact absurd hok (by simp)
        cases ws <;> simp [bind, Except.bind, ht, hne]
      | ok vs =>
        have htail := ih.1 hts
        cases ws with
        | nil => simp [bind, Except.bind, pure, Except.pure]
        | cons w' ws =>
          have hinj : vs.map (Except.ok : String → Except EncodeError String) = ws.map .ok ↔
              vs = ws := List.map_inj_right fun _ _ h => Except.ok.inj h
          simp [bind, Except.bind, pure, Except.pure, ht, htail, hinj]

/-- The error of a sequence of tokens is that of its first literal without a written
form. -/
theorem mapM_toWire_eq_error_iff {ts : List Token} {err : EncodeError} :
    ts.mapM toWire = .error err ↔
      ∃ s, (ts.filterMap literal?).find? (fun s => !decide s.Writable) = some s ∧
        s.Refused err := by
  induction ts with
  | nil => simp [pure, Except.pure]
  | cons t ts ih =>
    rw [List.mapM_cons]
    cases ht : t.toWire with
    | error e =>
      cases hs : t.literal? with
      | none =>
        obtain ⟨w, hw⟩ := exists_toWire_of_literal?_eq_none hs
        rw [ht] at hw
        exact absurd hw (by simp)
      | some s =>
        obtain rfl := literal?_eq_some_iff.1 hs
        have hbad : ¬ s.Writable := fun h => by
          obtain ⟨w, hw⟩ := exists_toWire_literal_iff.2 h
          rw [ht] at hw
          exact absurd hw (by simp)
        have hfind : ((literal s :: ts).filterMap literal?).find?
            (fun s => !decide s.Writable) = some s := by simp [literal?, hbad]
        rw [hfind, show (Except.error e >>= _ : Except EncodeError (List String)) =
          .error e from rfl]
        constructor
        · intro h
          obtain rfl := Except.error.inj h
          exact ⟨s, rfl, toWire_literal_eq_error_iff.1 ht⟩
        · intro h
          rcases h with ⟨s', hs', href⟩
          obtain rfl := Option.some.inj hs'
          have herr := toWire_literal_eq_error_iff.2 href
          rw [ht] at herr
          rw [Except.error.inj herr]
    | ok w =>
      have hfind : ((t :: ts).filterMap literal?).find? (fun s => !decide s.Writable) =
          (ts.filterMap literal?).find? (fun s => !decide s.Writable) := by
        cases hs : t.literal? with
        | none => rw [List.filterMap_cons_none hs]
        | some s =>
          obtain rfl := literal?_eq_some_iff.1 hs
          have hgood : s.Writable := exists_toWire_literal_iff.1 ⟨w, ht⟩
          rw [List.filterMap_cons_some hs, List.find?_cons_of_neg (by simp [hgood])]
      rw [hfind, ← ih]
      cases ts.mapM toWire <;> simp [bind, Except.bind, pure, Except.pure]

end Token

namespace Expr

/-! ## Trees -/

/-- The literals of a tree in prefix order. -/
def literals : Expr → List Scalar
  | literal s => [s]
  | var _ => []
  | unary _ e => e.literals
  | binary _ l r => l.literals ++ r.literals
  | lambda _ body => body.literals
  | ite c t e => c.literals ++ t.literals ++ e.literals

/-- The literals of a tree are those among its tokens. -/
theorem filterMap_literal?_tokens (e : Expr) :
    e.tokens.filterMap Token.literal? = e.literals := by
  induction e with
  | literal s => rfl
  | var x => rfl
  | unary op e ih => exact ih
  | binary op l r ihl ihr =>
    have hcons : (Token.binary op :: (l.tokens ++ r.tokens)).filterMap Token.literal? =
        (l.tokens ++ r.tokens).filterMap Token.literal? := rfl
    rw [tokens, hcons, List.filterMap_append, ihl, ihr, literals]
  | lambda x body ih => exact ih
  | ite c t e ihc iht ihe =>
    have hcons : (Token.ite :: (c.tokens ++ t.tokens ++ e.tokens)).filterMap Token.literal? =
        (c.tokens ++ t.tokens ++ e.tokens).filterMap Token.literal? := rfl
    rw [tokens, hcons, List.filterMap_append, List.filterMap_append, ihc, iht, ihe, literals]

/-- A tree is written down as its tokens. -/
theorem wireTokens_eq_ok_iff {e : Expr} {ws : List String} :
    e.wireTokens = .ok ws ↔ e.tokens.map Token.toWire = ws.map .ok := by
  rw [wireTokens, emit_eq_tokens, Token.mapM_toWire_eq_ok_iff]

/-- A tree that cannot be written fails with the error of the first literal to blame. -/
theorem wireTokens_eq_error_iff {e : Expr} {err : EncodeError} :
    e.wireTokens = .error err ↔
      ∃ s, e.literals.find? (fun s => !decide s.Writable) = some s ∧ s.Refused err := by
  rw [wireTokens, emit_eq_tokens, Token.mapM_toWire_eq_error_iff, filterMap_literal?_tokens]

/-- A tree can be written exactly when all its literals can. -/
theorem exists_wireTokens_iff {e : Expr} :
    (∃ ws, e.wireTokens = .ok ws) ↔ ∀ s ∈ e.literals, s.Writable := by
  constructor
  · rintro ⟨ws, hws⟩ s hs
    rw [← filterMap_literal?_tokens] at hs
    obtain ⟨t, ht, hts⟩ := List.mem_filterMap.1 hs
    obtain rfl := Token.literal?_eq_some_iff.1 hts
    have hmem := List.mem_map_of_mem (f := Token.toWire) ht
    rw [wireTokens_eq_ok_iff.1 hws] at hmem
    obtain ⟨w, -, hw⟩ := List.mem_map.1 hmem
    exact Token.exists_toWire_literal_iff.1 ⟨w, hw.symm⟩
  · intro h
    cases hws : e.wireTokens with
    | ok ws => exact ⟨ws, rfl⟩
    | error err =>
      obtain ⟨s, hfind, -⟩ := wireTokens_eq_error_iff.1 hws
      have hbad := List.find?_some hfind
      exact absurd (h s (List.mem_of_find?_eq_some hfind)) (by simpa using hbad)

end Expr

end WireLambda
