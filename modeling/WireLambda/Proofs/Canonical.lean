import WireLambda.Proofs.Writable

/-!
# The shortest spelling of a token

Reading a token is more liberal than writing one.  What follows the indicator of a truth value or
of a conditional is ignored, and so is what follows the symbol of an operator; the number of an
integer or of a variable may have leading zero digits.  Each written token therefore has many
spellings.  `Token.canonical` is what is left of a spelling without all that is ignored.

`Token.ofWire_eq_ok_iff` is the law of the two directions: a text spells a token exactly if its
canonical form is what the token is written as.  From it follow the rest: that writing what was
read gives the canonical form, that two texts spell the same token exactly if their canonical forms
are equal, and that a canonical form is its own.

Numbers and texts have such a law each (`Base94.decodeInteger_eq_ok_iff`,
`Base94.decodeString_eq_ok_iff`), and `Token.ofBody_eq_ok_iff` puts them together, one case for
each indicator.

The main result is `reading_undoes_writing`.
-/

namespace WireLambda

namespace Base94

/-! ## Numbers and texts -/

theorem Natural.ofDigits_cons_zero {d : Digit} (h : d.val = 0) (ds : List Digit) :
    ofDigits (d :: ds) = ofDigits ds := by
  rw [ofDigits, List.foldl_cons, Nat.zero_mul, Nat.zero_add, h]
  rfl

/-- If one character is written for the digit zero alone, then those of them that lead a run of
digits are its leading zeros. -/
theorem dropWhile_map_digits {f : Digit → Char} {zero : Char} (hzero : ∀ d, f d = zero ↔ d.val = 0)
    (ds : List Digit) :
    (ds.map f).dropWhile (· == zero) = (ds.dropWhile (fun d => d.val == 0)).map f := by
  have hsame : ((· == zero) ∘ f) = fun d : Digit => d.val == 0 := by
    funext d
    exact decide_eq_decide.2 (hzero d)
  rw [List.dropWhile_map, hsame]

theorem decodeInteger_eq_ok_iff_spell {body : String} {n : Nat} :
    decodeInteger body = .ok n ↔ ∃ ds, body = spell ds ∧ Natural.ofDigits ds = n := by
  simp only [decodeInteger, map_eq_ok_iff, bodyDigits_eq_ok_iff]

/-- Characters that are the digits of a number behind leading `!` spell the number.  Each of the
leading `!` is one more zero digit. -/
theorem exists_digits_of_dropWhile_eq {cs : List Char} {n : Nat}
    (h : cs.dropWhile (· == '!') = (Natural.digits n).map Digit.toChar) :
    ∃ ds : List Digit, cs = ds.map Digit.toChar ∧ Natural.ofDigits ds = n := by
  induction cs with
  | nil => exact ⟨Natural.digits n, h, Natural.ofDigits_digits n⟩
  | cons c cs ih =>
    by_cases hc : c = '!'
    · subst hc
      obtain ⟨ds, rfl, hds⟩ := ih h
      let zero : Digit := ⟨0, by decide⟩
      have hzero : zero.toChar = '!' := (Digit.toChar_eq_bang_iff zero).2 rfl
      refine ⟨zero :: ds, by rw [List.map_cons, hzero], ?_⟩
      rw [Natural.ofDigits_cons_zero rfl, hds]
    · rw [List.dropWhile_cons_of_neg (by simpa using hc)] at h
      exact ⟨Natural.digits n, h, Natural.ofDigits_digits n⟩

/-- **Numbers.**  A body spells a number exactly if it is the body written for the number, up to
leading `!`. -/
theorem decodeInteger_eq_ok_iff {body : String} {n : Nat} :
    decodeInteger body = .ok n ↔ body.toList.dropWhile (· == '!') = (encodeInteger n).toList := by
  rw [decodeInteger_eq_ok_iff_spell, encodeInteger, toList_spell]
  constructor
  · rintro ⟨ds, rfl, rfl⟩
    rw [toList_spell, dropWhile_map_digits Digit.toChar_eq_bang_iff, Natural.digits_ofDigits]
  · intro h
    obtain ⟨ds, hds, hn⟩ := exists_digits_of_dropWhile_eq h
    exact ⟨ds, by rw [← String.toList_inj, toList_spell, hds], hn⟩

/-- A body spells a number exactly if all its characters are digits. -/
theorem exists_decodeInteger_iff {body : String} :
    (∃ n, decodeInteger body = .ok n) ↔ ∀ c ∈ body.toList, '!' ≤ c ∧ c ≤ '~' := by
  have hdigit : ∀ c, ('!' ≤ c ∧ c ≤ '~') ↔ Digit.ofChar? c ≠ none := fun c => by
    rw [ne_eq, Digit.ofChar?_eq_none_iff, Classical.not_not]
  simp only [hdigit]
  constructor
  · rintro ⟨n, h⟩ c hc
    obtain ⟨ds, rfl, -⟩ := decodeInteger_eq_ok_iff_spell.1 h
    rw [toList_spell] at hc
    obtain ⟨d, -, rfl⟩ := List.mem_map.1 hc
    simp
  · intro h
    cases hn : decodeInteger body with
    | ok n => exact ⟨n, rfl⟩
    | error e =>
      rw [decodeInteger, map_eq_error_iff, bodyDigits, readEach_eq_error_iff] at hn
      obtain ⟨before, c, after, hbody, -, hc, -⟩ := hn
      exact absurd hc (h c (by rw [hbody]; simp))

/-- **Texts.**  A body spells a text exactly if it is the body written for the text. -/
theorem decodeString_eq_ok_iff {body text : String} :
    decodeString body = .ok text ↔ encodeString text = .ok body := by
  simp only [decodeString, encodeString, map_eq_ok_iff, bodyDigits_eq_ok_iff,
    textDigits_eq_ok_iff]
  constructor
  · rintro ⟨ds, rfl, rfl⟩
    exact ⟨ds, rfl, rfl⟩
  · rintro ⟨ds, rfl, rfl⟩
    exact ⟨ds, rfl, rfl⟩

end Base94

open Base94

namespace Token

/-! ## Canonical forms -/

/-- What counts of the body of a token: nothing of one that is ignored, the symbol of an operator,
a number without its leading zero digits, and all of a text. -/
def canonicalBody (i : Indicator) (body : List Char) : List Char :=
  match i with
  | .truth | .falsity | .conditional => []
  | .unary | .binary => body.take 1
  | .integer | .lambda | .var => body.dropWhile (· == '!')
  | .text => body

/-- What counts of the spelling of a token: its indicator and what counts of its body. -/
def canonical (raw : String) : String :=
  match raw.toList with
  | [] => raw
  | c :: body =>
      match Indicator.ofChar? c with
      | some i => String.ofList (c :: canonicalBody i body)
      | none => raw

theorem canonicalBody_sublist (i : Indicator) (body : List Char) :
    (canonicalBody i body).Sublist body := by
  cases i with
  | truth | falsity | conditional => exact List.nil_sublist body
  | unary | binary => exact List.take_sublist 1 body
  | integer | lambda | var => exact List.dropWhile_sublist _
  | text => exact List.Sublist.refl body

/-- A canonical form leaves characters out and adds none. -/
theorem canonical_sublist (raw : String) : (canonical raw).toList.Sublist raw.toList := by
  unfold canonical
  split
  · exact List.Sublist.refl _
  · next c body hraw =>
    split
    · next i hi =>
      rw [String.toList_ofList, hraw]
      exact (canonicalBody_sublist i body).cons_cons c
    · exact List.Sublist.refl _

/-! ## Bodies -/

theorem readNumber_eq_ok_iff {i : Indicator} {body : List Char} {n : Nat} :
    readNumber i (String.ofList body) = .ok n ↔
      body.dropWhile (· == '!') = (encodeInteger n).toList := by
  rw [readNumber, mapError_eq_ok_iff, decodeInteger_eq_ok_iff, String.toList_ofList]

theorem readVarId_eq_ok_iff {i : Indicator} {body : List Char} {x : VarId} :
    readVarId i (String.ofList body) = .ok x ↔
      body.dropWhile (· == '!') = (encodeInteger x.index.toNat).toList := by
  rw [← readNumber_eq_ok_iff (i := i), readVarId]
  constructor
  · intro h
    cases hn : readNumber i (String.ofList body) with
    | error e => rw [hn] at h; cases h
    | ok n =>
      rw [hn] at h
      by_cases hlt : n < UInt64.size
      · have hx : (⟨UInt64.ofNat n⟩ : VarId) = x := by
          simpa [Except.bind, hlt] using h
        rw [← hx]
        exact congrArg Except.ok (UInt64.toNat_ofNat_of_lt hlt).symm
      · simp [Except.bind, hlt] at h
  · intro h
    have hlt : x.index.toNat < UInt64.size := x.index.toNat_lt_size
    rw [h]
    simp [Except.bind, hlt]

/-- A body is read as an operator exactly if what counts of the body is the symbol of the
operator. -/
theorem readOperator_eq_ok_iff {α : Type} {arity : OperatorArity} {ofSymbol? : Char → Option α}
    {symbol : α → Char} (hread : ∀ op, ofSymbol? (symbol op) = some op)
    (hwritten : ∀ {c op}, ofSymbol? c = some op → symbol op = c) {body : List Char} {op : α} :
    readOperator arity ofSymbol? body = .ok op ↔
      String.singleton (symbol op) = String.ofList (body.take 1) := by
  have hfound : readOperator arity ofSymbol? body = .ok op ↔
      body.head?.bind ofSymbol? = some op := by
    rw [readOperator]
    cases body.head?.bind ofSymbol? with
    | none => simp
    | some op' => simp
  rw [hfound, ← String.toList_inj, String.toList_singleton, String.toList_ofList]
  cases body with
  | nil => simp
  | cons c body =>
    constructor
    · intro h
      rw [hwritten h]
      rfl
    · intro h
      obtain rfl : symbol op = c := (List.cons.inj h).1
      exact hread op

theorem ofBody_integer (body : List Char) :
    ofBody .integer body =
      (readNumber .integer (String.ofList body)).map fun n : Nat => literal (.int n) := by
  rw [ofBody]
  cases readNumber .integer (String.ofList body) <;> rfl

/-- **Bodies.**  A body is read as a token exactly if what counts of it is written after the
indicator of the token. -/
theorem ofBody_eq_ok_iff {i : Indicator} {body : List Char} {t : Token} :
    ofBody i body = .ok t ↔
      t.indicator = i ∧ t.wireBody = .ok (String.ofList (canonicalBody i body)) := by
  constructor
  · intro h
    cases i with
    | truth | falsity | conditional =>
      obtain rfl := Except.ok.inj h
      exact ⟨rfl, rfl⟩
    | integer =>
      rw [ofBody_integer] at h
      obtain ⟨n, hn, rfl⟩ := map_eq_ok_iff.1 h
      have hwritten : (literal (.int (n : Int))).wireBody = .ok (encodeInteger n) := rfl
      rw [hwritten, canonicalBody, readNumber_eq_ok_iff.1 hn, String.ofList_toList]
      exact ⟨rfl, rfl⟩
    | text =>
      obtain ⟨s, hs, rfl⟩ := map_eq_ok_iff.1 h
      rw [mapError_eq_ok_iff, decodeString_eq_ok_iff] at hs
      exact ⟨rfl, mapError_eq_ok_iff.2 hs⟩
    | unary =>
      obtain ⟨op, hop, rfl⟩ := map_eq_ok_iff.1 h
      rw [readOperator_eq_ok_iff UnaryOp.ofSymbol?_symbol UnaryOp.symbol_of_ofSymbol?] at hop
      exact ⟨rfl, congrArg Except.ok hop⟩
    | binary =>
      obtain ⟨op, hop, rfl⟩ := map_eq_ok_iff.1 h
      rw [readOperator_eq_ok_iff BinaryOp.ofSymbol?_symbol BinaryOp.symbol_of_ofSymbol?] at hop
      exact ⟨rfl, congrArg Except.ok hop⟩
    | lambda | var =>
      obtain ⟨x, hx, rfl⟩ := map_eq_ok_iff.1 h
      rw [canonicalBody, readVarId_eq_ok_iff.1 hx, String.ofList_toList]
      exact ⟨rfl, rfl⟩
  · rintro ⟨rfl, h⟩
    cases t with
    | literal s =>
      cases s with
      | bool b => cases b <;> rfl
      | int n =>
        rw [wireBody] at h
        split at h
        · cases h
        · next hn =>
          have hbody : body.dropWhile (· == '!') = (encodeInteger n.toNat).toList := by
            rw [Except.ok.inj h, String.toList_ofList]
            rfl
          have hnat : ((n.toNat : Nat) : Int) = n := Int.toNat_of_nonneg (by omega)
          show ofBody .integer body = _
          rw [ofBody_integer]
          exact map_eq_ok_iff.2 ⟨n.toNat, readNumber_eq_ok_iff.2 hbody, by rw [hnat]⟩
      | str s =>
        have hs : encodeString s = .ok (String.ofList body) := mapError_eq_ok_iff.1 h
        exact map_eq_ok_iff.2 ⟨s, mapError_eq_ok_iff.2 (decodeString_eq_ok_iff.2 hs), rfl⟩
    | unary op =>
      refine map_eq_ok_iff.2 ⟨op, ?_, rfl⟩
      exact (readOperator_eq_ok_iff UnaryOp.ofSymbol?_symbol
        UnaryOp.symbol_of_ofSymbol?).2 (Except.ok.inj h)
    | binary op =>
      refine map_eq_ok_iff.2 ⟨op, ?_, rfl⟩
      exact (readOperator_eq_ok_iff BinaryOp.ofSymbol?_symbol
        BinaryOp.symbol_of_ofSymbol?).2 (Except.ok.inj h)
    | ite => rfl
    | lambda x | var x =>
      refine map_eq_ok_iff.2 ⟨x, readVarId_eq_ok_iff.2 ?_, rfl⟩
      rw [Except.ok.inj h, String.toList_ofList]
      rfl

/-! ## Tokens -/

theorem toWire_eq_ok_iff {t : Token} {w : String} :
    t.toWire = .ok w ↔
      ∃ body, t.wireBody = .ok (String.ofList body) ∧ w.toList = t.indicator.toChar :: body := by
  rw [toWire, map_eq_ok_iff]
  constructor
  · rintro ⟨body, hbody, rfl⟩
    exact ⟨body.toList, by rw [hbody, String.ofList_toList], by simp [String.toList_append]⟩
  · rintro ⟨body, hbody, hw⟩
    exact ⟨_, hbody, by rw [← String.toList_inj, hw]; simp [String.toList_append]⟩

/-- **Spellings.**  A text spells a token exactly if its canonical form is what the token is
written as. -/
theorem ofWire_eq_ok_iff {raw : String} {t : Token} :
    ofWire raw = .ok t ↔ t.toWire = .ok (canonical raw) := by
  rw [toWire_eq_ok_iff]
  unfold ofWire canonical
  cases hraw : raw.toList with
  | nil => simp [hraw]
  | cons c body =>
    cases hc : Indicator.ofChar? c with
    | none =>
      have hne : c ≠ t.indicator.toChar := by
        rintro rfl
        rw [Indicator.ofChar?_toChar] at hc
        cases hc
      simp [hc, hraw, hne]
    | some i =>
      have hi : i.toChar = c := Indicator.toChar_of_ofChar? hc
      simp only [hc, String.toList_ofList, List.cons.injEq]
      rw [ofBody_eq_ok_iff]
      constructor
      · rintro ⟨rfl, hbody⟩
        exact ⟨_, hbody, hi.symm, rfl⟩
      · rintro ⟨b, hbody, hchar, rfl⟩
        have hindicator : Indicator.ofChar? t.indicator.toChar = some i := by rw [← hchar, hc]
        rw [Indicator.ofChar?_toChar] at hindicator
        exact ⟨Option.some.inj hindicator, hbody⟩

/-- A text that a token is written as is its own canonical form. -/
theorem canonical_of_toWire {t : Token} {w : String} (h : t.toWire = .ok w) :
    canonical w = w := by
  have hwritten := ofWire_eq_ok_iff.1 (ofWire_toWire h)
  rw [h] at hwritten
  exact (Except.ok.inj hwritten).symm

/-- The number of a variable has to fit a word. -/
theorem readVarId_of_decodeInteger {body : String} {n : Nat} (h : decodeInteger body = .ok n)
    (i : Indicator) :
    (n < UInt64.size → ∃ x : VarId, x.index.toNat = n ∧ readVarId i body = .ok x) ∧
      (UInt64.size ≤ n → readVarId i body = .error (.idOutOfRange n)) := by
  have hread : readNumber i body = .ok n := by rw [readNumber, h]; rfl
  rw [readVarId, hread]
  constructor
  · intro hlt
    refine ⟨⟨UInt64.ofNat n⟩, UInt64.toNat_ofNat_of_lt hlt, ?_⟩
    simp [Except.bind, hlt]
  · intro hle
    simp [Except.bind, Nat.not_lt.2 hle]

theorem toWire_eq_error_iff {t : Token} {err : EncodeError} :
    t.toWire = .error err ↔ ∃ s, t = literal s ∧ s.Refused err := by
  constructor
  · intro h
    cases hs : t.literal? with
    | none =>
      obtain ⟨w, hw⟩ := exists_toWire_of_literal?_eq_none hs
      rw [h] at hw
      cases hw
    | some s =>
      obtain rfl := literal?_eq_some_iff.1 hs
      exact ⟨s, rfl, toWire_literal_eq_error_iff.1 h⟩
  · rintro ⟨s, rfl, hrefused⟩
    exact toWire_literal_eq_error_iff.2 hrefused

/-- A lambda and a variable are read as the number behind the indicator is. -/
theorem ofWire_variable (body : String) :
    ofWire ("L" ++ body) = (readVarId .lambda body).map lambda ∧
      ofWire ("v" ++ body) = (readVarId .var body).map var := by
  have hbody : ∀ i : Indicator,
      ofWire (String.singleton i.toChar ++ body) = ofBody i body.toList :=
    fun i => by simp [ofWire, String.toList_append]
  have hread : ∀ i, readVarId i (String.ofList body.toList) = readVarId i body :=
    fun i => by rw [String.ofList_toList]
  exact ⟨(hbody .lambda).trans (congrArg (·.map lambda) (hread .lambda)),
    (hbody .var).trans (congrArg (·.map var) (hread .var))⟩

end Token

/-! ## The main result -/

/-- **Reading undoes writing.**  Whatever is written for a token is read as the token, and only a
negative integer and a text with a character outside the alphabet are not written.

Conversely a text is read as a token exactly if the token is written as the canonical form of the
text.  So to read a text and write it again gives its canonical form, which is never longer and
is read as the same token; doing so once more changes nothing; and a text is read as the token
that another one is read as exactly if their canonical forms are equal.

A lambda or a variable whose body has only digits is read if its number is below 2^64, and refused
with that number if not. -/
theorem reading_undoes_writing :
    (∀ (t : Token) w, t.toWire = .ok w → Token.ofWire w = .ok t) ∧
    (∀ (t : Token) err, t.toWire = .error err ↔ ∃ s, t = .literal s ∧ s.Refused err) ∧
    (∀ raw t, Token.ofWire raw = .ok t ↔ t.toWire = .ok (Token.canonical raw)) ∧
    (∀ raw t, Token.ofWire raw = .ok t →
      (Token.canonical raw).length ≤ raw.length ∧
      Token.ofWire (Token.canonical raw) = .ok t ∧
      Token.canonical (Token.canonical raw) = Token.canonical raw) ∧
    (∀ raw t, Token.ofWire raw = .ok t → ∀ raw',
      Token.ofWire raw' = .ok t ↔ Token.canonical raw' = Token.canonical raw) ∧
    (∀ body, (∃ n, decodeInteger body = .ok n) ↔ ∀ c ∈ body.toList, '!' ≤ c ∧ c ≤ '~') ∧
    ∀ body n, decodeInteger body = .ok n →
      (n < UInt64.size → ∃ x : VarId, x.index.toNat = n ∧
        Token.ofWire ("L" ++ body) = .ok (.lambda x) ∧
        Token.ofWire ("v" ++ body) = .ok (.var x)) ∧
      (UInt64.size ≤ n →
        Token.ofWire ("L" ++ body) = .error (.idOutOfRange n) ∧
        Token.ofWire ("v" ++ body) = .error (.idOutOfRange n)) := by
  refine ⟨fun t w => Token.ofWire_toWire, fun t err => Token.toWire_eq_error_iff,
    fun raw t => Token.ofWire_eq_ok_iff, fun raw t h => ?_, fun raw t h raw' => ?_,
    fun body => exists_decodeInteger_iff, fun body n h => ?_⟩
  · have hwritten := Token.ofWire_eq_ok_iff.1 h
    have hlength := (Token.canonical_sublist raw).length_le
    rw [String.length_toList, String.length_toList] at hlength
    exact ⟨hlength, Token.ofWire_toWire hwritten, Token.canonical_of_toWire hwritten⟩
  · have hwritten := Token.ofWire_eq_ok_iff.1 h
    rw [Token.ofWire_eq_ok_iff, hwritten, Except.ok.injEq, eq_comm]
  · obtain ⟨hlambda, hvar⟩ := Token.ofWire_variable body
    have hfits := Token.readVarId_of_decodeInteger h
    constructor
    · intro hlt
      obtain ⟨x, hx, hread⟩ := (hfits .lambda).1 hlt
      obtain ⟨y, hy, hread'⟩ := (hfits .var).1 hlt
      obtain rfl : x = y := by
        cases x; cases y
        exact congrArg VarId.mk (UInt64.toNat_inj.1 (hx.trans hy.symm))
      exact ⟨x, hx, by rw [hlambda, hread]; rfl, by rw [hvar, hread']; rfl⟩
    · intro hle
      exact ⟨by rw [hlambda, (hfits .lambda).2 hle]; rfl, by rw [hvar, (hfits .var).2 hle]; rfl⟩

/-- A number with leading zeros loses them, an operator loses what stands behind its symbol, and
the first number that is none of a variable is that of 2^64. -/
theorem reading_undoes_writing_shortened :
    Token.canonical "I!!\"" = "I\"" ∧ Token.ofWire "I\"" = .ok (.literal (.int 1)) ∧
    (∀ raw, Token.ofWire raw = .ok (.literal (.int 1)) ↔ Token.canonical raw = "I\"") ∧
    Token.ofWire "B+" = Token.ofWire "B+ab" ∧
    (∃ x : VarId, x.index.toNat = UInt64.size - 1 ∧
      Token.ofWire ("v" ++ "A33?&-jqQh") = .ok (.var x)) ∧
    Token.ofWire ("L" ++ "A33?&-jqQi") = .error (.idOutOfRange UInt64.size) := by
  obtain ⟨hwritten, -, -, hread, hsame, -, hids⟩ := reading_undoes_writing
  have hone : Token.ofWire "I!!\"" = .ok (.literal (.int 1)) := by decide +kernel
  have hshort : Token.canonical "I!!\"" = "I\"" := by decide +kernel
  have hplus : Token.ofWire "B+ab" = .ok (.binary .add) := by decide +kernel
  obtain ⟨-, hcanonical, -⟩ := hread _ _ hone
  obtain ⟨x, hx, -, hvar⟩ := (hids "A33?&-jqQh" (UInt64.size - 1) (by decide +kernel)).1 (by decide)
  rw [hshort] at hcanonical
  refine ⟨hshort, hcanonical, fun raw => ?_, ?_, ⟨x, hx, hvar⟩, ?_⟩
  · rw [hsame _ _ hone, hshort]
  · rw [hplus]
    exact hwritten _ _ rfl
  · exact ((hids "A33?&-jqQi" UInt64.size (by decide +kernel)).2 (Nat.le_refl _)).1

end WireLambda
