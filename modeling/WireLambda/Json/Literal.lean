/-!
# String literals of JSON

Between its quotes a JSON string escapes the quote, the backslash and the controls below
U+0020, and nothing else: that is what `encode` writes.  Reading accepts more.  A solidus
may be escaped, and any UTF-16 unit may be written as `\u` and four hexadecimal digits; two
units that form a surrogate pair denote one character.

A literal can hold half of a pair alone.  It is then well formed but denotes no text, so
reading a literal has three results: not a literal, a literal without a text (`none`), and
a literal with its text.

Reading goes in two steps.  `readPieces` splits a literal into characters and units, and
`joinPieces` puts the units together.
-/

namespace WireLambda
namespace Json
namespace Literal

/-- The hexadecimal digit of a number below 16, in lower case. -/
def hexDigit (n : Nat) : Char := if n < 10 then Char.ofNat (48 + n) else Char.ofNat (87 + n)

/-- The value of a hexadecimal digit of either case. -/
def hexValue? (c : Char) : Option Nat :=
  if '0' ≤ c ∧ c ≤ '9' then some (c.toNat - 48)
  else if 'a' ≤ c ∧ c ≤ 'f' then some (c.toNat - 87)
  else if 'A' ≤ c ∧ c ≤ 'F' then some (c.toNat - 55)
  else none

/-- How a character is written inside a literal. -/
def encodeChar (c : Char) : List Char :=
  if c = '"' then ['\\', '"']
  else if c = '\\' then ['\\', '\\']
  else if c = '\x08' then ['\\', 'b']
  else if c = '\t' then ['\\', 't']
  else if c = '\n' then ['\\', 'n']
  else if c = '\x0c' then ['\\', 'f']
  else if c = '\x0d' then ['\\', 'r']
  else if c.toNat < 32 then
    ['\\', 'u', '0', '0', hexDigit (c.toNat / 16), hexDigit (c.toNat % 16)]
  else [c]

/-- The characters of a text as they stand inside a literal. -/
def encode (cs : List Char) : List Char := cs.flatMap encodeChar

/-! ## Reading -/

/-- A part of a literal: a character, or a UTF-16 unit given by its number. -/
inductive Piece where
  | char (c : Char)
  | unit (n : Nat)
  deriving DecidableEq

/-- The character that a one-letter escape stands for. -/
def shortEscape? (c : Char) : Option Char :=
  if c = '"' then some '"'
  else if c = '\\' then some '\\'
  else if c = '/' then some '/'
  else if c = 'b' then some '\x08'
  else if c = 'f' then some '\x0c'
  else if c = 'n' then some '\n'
  else if c = 'r' then some '\x0d'
  else if c = 't' then some '\t'
  else none

/-- The number that four hexadecimal digits spell, and what follows them. -/
def readUnit : List Char → Option (Nat × List Char)
  | a :: b :: c :: d :: cs => do
      let a ← hexValue? a
      let b ← hexValue? b
      let c ← hexValue? c
      let d ← hexValue? d
      return (((a * 16 + b) * 16 + c) * 16 + d, cs)
  | _ => none

/-- What an escape stands for, after its backslash, and what follows it. -/
def readEscape : List Char → Option (Piece × List Char)
  | [] => none
  | c :: cs =>
      if c = 'u' then (readUnit cs).map fun (n, rest) => (.unit n, rest)
      else (shortEscape? c).map fun e => (.char e, cs)

theorem length_lt_of_readUnit {cs rest : List Char} {n : Nat}
    (h : readUnit cs = some (n, rest)) : rest.length < cs.length := by
  unfold readUnit at h
  split at h
  · simp only [Option.pure_def, Option.bind_eq_bind, Option.bind_eq_some_iff,
      Option.some.injEq, Prod.mk.injEq] at h
    obtain ⟨-, -, -, -, -, -, -, -, -, rfl⟩ := h
    simp only [List.length_cons]; omega
  · exact absurd h (by simp)

theorem length_lt_of_readEscape {cs rest : List Char} {p : Piece}
    (h : readEscape cs = some (p, rest)) : rest.length < cs.length := by
  cases cs with
  | nil => simp [readEscape] at h
  | cons c cs =>
    rw [readEscape] at h
    split at h
    · obtain ⟨⟨n, r⟩, hr, heq⟩ := Option.map_eq_some_iff.1 h
      obtain ⟨-, rfl⟩ := Prod.mk.inj heq
      exact Nat.lt_succ_of_lt (length_lt_of_readUnit hr)
    · obtain ⟨e, -, heq⟩ := Option.map_eq_some_iff.1 h
      obtain ⟨-, rfl⟩ := Prod.mk.inj heq
      exact Nat.lt_succ_self _

/-- The pieces of a literal up to its closing quote, and what follows the quote. -/
def readPieces : List Char → Option (List Piece × List Char)
  | [] => none
  | c :: cs =>
      if c = '"' then some ([], cs)
      else if c = '\\' then
        match _h : readEscape cs with
        | none => none
        | some (p, rest) => (readPieces rest).map fun (ps, after) => (p :: ps, after)
      else if c.toNat < 32 then none
      else (readPieces cs).map fun (ps, after) => (.char c :: ps, after)
termination_by cs => cs.length
decreasing_by
  · exact Nat.lt_succ_of_lt (length_lt_of_readEscape _h)
  · exact Nat.lt_succ_self _

/-- Whether a UTF-16 unit is the first half of a pair. -/
def isHighHalf (n : Nat) : Bool := 0xd800 ≤ n && n < 0xdc00

/-- Whether a UTF-16 unit is the second half of a pair. -/
def isLowHalf (n : Nat) : Bool := 0xdc00 ≤ n && n < 0xe000

/-- The character that two halves of a pair denote. -/
def joinHalves (high low : Nat) : Char :=
  Char.ofNat (0x10000 + (high - 0xd800) * 0x400 + (low - 0xdc00))

/-- The text that pieces denote, given the first half of a pair if one came just before. -/
def joinPieces : Option Nat → List Piece → Option (List Char)
  | none, [] => some []
  | some _, [] => none
  | none, .char c :: ps => (joinPieces none ps).map (c :: ·)
  | some _, .char _ :: _ => none
  | none, .unit n :: ps =>
      if isHighHalf n then joinPieces (some n) ps
      else if isLowHalf n then none
      else (joinPieces none ps).map (Char.ofNat n :: ·)
  | some high, .unit n :: ps =>
      if isLowHalf n then (joinPieces none ps).map (joinHalves high n :: ·) else none

/-- The text of a literal, if it denotes one, read from behind its opening quote, and what
follows its closing quote. -/
def decode (cs : List Char) : Option (Option String × List Char) :=
  (readPieces cs).map fun (ps, after) => ((joinPieces none ps).map String.ofList, after)

theorem length_lt_of_readPieces {cs after : List Char} {ps : List Piece}
    (h : readPieces cs = some (ps, after)) : after.length < cs.length := by
  fun_induction readPieces cs generalizing ps after with
  | case1 => exact absurd h (by simp)
  | case2 cs =>
    obtain ⟨-, rfl⟩ := Prod.mk.inj (Option.some.inj h)
    exact Nat.lt_succ_self _
  | case3 => exact absurd h (by simp)
  | case4 cs p rest hr _ ih =>
    obtain ⟨⟨qs, a⟩, hq, heq⟩ := Option.map_eq_some_iff.1 h
    obtain ⟨-, rfl⟩ := Prod.mk.inj heq
    exact Nat.lt_trans (ih hq) (Nat.lt_succ_of_lt (length_lt_of_readEscape hr))
  | case5 => exact absurd h (by simp)
  | case6 c cs hc hb hlow ih =>
    obtain ⟨⟨qs, a⟩, hq, heq⟩ := Option.map_eq_some_iff.1 h
    obtain ⟨-, rfl⟩ := Prod.mk.inj heq
    exact Nat.lt_succ_of_lt (ih hq)

theorem length_lt_of_decode {cs after : List Char} {s : Option String}
    (h : decode cs = some (s, after)) : after.length < cs.length := by
  obtain ⟨⟨ps, a⟩, hp, heq⟩ := Option.map_eq_some_iff.1 h
  obtain ⟨-, rfl⟩ := Prod.mk.inj heq
  exact length_lt_of_readPieces hp

/-! ## What is written is read back -/

/-- Behind a backslash stands an escape. -/
theorem readPieces_escape {cs rest : List Char} {p : Piece} (h : readEscape cs = some (p, rest)) :
    readPieces ('\\' :: cs) = (readPieces rest).map fun (ps, after) => (p :: ps, after) := by
  have hquote : '\\' ≠ '"' := by decide
  rw [readPieces, if_neg hquote, if_pos rfl]
  split
  · next hnone => rw [h] at hnone; exact absurd hnone (by simp)
  · next q rest' hsome =>
    rw [h] at hsome
    obtain ⟨rfl, rfl⟩ := Prod.mk.inj (Option.some.inj hsome)
    rfl

theorem readPieces_encodeChar (c : Char) (cs : List Char) :
    ∃ p, (∀ ps, joinPieces none (p :: ps) = (joinPieces none ps).map (c :: ·)) ∧
      readPieces (encodeChar c ++ cs) =
        (readPieces cs).map fun (ps, after) => (p :: ps, after) := by
  by_cases hlow : c.toNat < 32
  · have hc : c = Char.ofNat c.toNat := (Char.ofNat_toNat c).symm
    revert hc
    generalize c.toNat = n at hlow ⊢
    rintro rfl
    have short : ∀ (x e : Char), shortEscape? x = some e → x ≠ 'u' →
        encodeChar e = ['\\', x] →
        ∃ p, (∀ ps, joinPieces none (p :: ps) = (joinPieces none ps).map (e :: ·)) ∧
          readPieces (encodeChar e ++ cs) =
            (readPieces cs).map fun (ps, after) => (p :: ps, after) := by
      intro x e hx hu he
      refine ⟨.char e, fun ps => rfl, ?_⟩
      have hesc : readEscape (x :: cs) = some (.char e, cs) := by
        simp [readEscape, hu, hx]
      rw [he]
      exact readPieces_escape hesc
    by_cases h8 : n = 8
    · subst h8; exact short 'b' _ rfl (by decide) rfl
    by_cases h9 : n = 9
    · subst h9; exact short 't' _ rfl (by decide) rfl
    by_cases h10 : n = 10
    · subst h10; exact short 'n' _ rfl (by decide) rfl
    by_cases h12 : n = 12
    · subst h12; exact short 'f' _ rfl (by decide) rfl
    by_cases h13 : n = 13
    · subst h13; exact short 'r' _ rfl (by decide) rfl
    have henc : encodeChar (Char.ofNat n) =
        ['\\', 'u', '0', '0', hexDigit (n / 16), hexDigit (n % 16)] := by
      have hall : ∀ m < 32, m ∉ [8, 9, 10, 12, 13] →
          encodeChar (Char.ofNat m) =
            ['\\', 'u', '0', '0', hexDigit (m / 16), hexDigit (m % 16)] := by
        decide +kernel
      exact hall n hlow (by simp [h8, h9, h10, h12, h13])
    have hunit : readUnit ('0' :: '0' :: hexDigit (n / 16) :: hexDigit (n % 16) :: cs) =
        some (n, cs) := by
      have hhigh : ∀ m < 32, hexValue? (hexDigit (m / 16)) = some (m / 16) := by
        decide +kernel
      have hlow' : ∀ m < 32, hexValue? (hexDigit (m % 16)) = some (m % 16) := by
        decide +kernel
      have hzero : hexValue? '0' = some 0 := by decide
      simp only [readUnit, hzero, hhigh n hlow, hlow' n hlow, Option.pure_def,
        Option.bind_eq_bind, Option.bind_some, Option.some.injEq, Prod.mk.injEq, and_true]
      omega
    refine ⟨.unit n, fun ps => ?_, ?_⟩
    · have h1 : isHighHalf n = false := by simp [isHighHalf]; omega
      have h2 : isLowHalf n = false := by simp [isLowHalf]; omega
      simp [joinPieces, h1, h2]
    · have hesc : readEscape
          ('u' :: '0' :: '0' :: hexDigit (n / 16) :: hexDigit (n % 16) :: cs) =
          some (.unit n, cs) := by
        simp [readEscape, hunit]
      rw [henc]
      exact readPieces_escape hesc
  · refine ⟨.char c, fun ps => rfl, ?_⟩
    have escaped : ∀ x : Char, encodeChar x = ['\\', x] → shortEscape? x = some x →
        x ≠ 'u' → readPieces (encodeChar x ++ cs) =
          (readPieces cs).map fun (ps, after) => (.char x :: ps, after) := by
      intro x hx he hu
      have hesc : readEscape (x :: cs) = some (.char x, cs) := by
        simp [readEscape, hu, he]
      rw [hx]
      exact readPieces_escape hesc
    by_cases hq : c = '"'
    · subst hq; exact escaped '"' rfl rfl (by decide)
    by_cases hb : c = '\\'
    · subst hb; exact escaped '\\' rfl rfl (by decide)
    have hne : ∀ m : Nat, m < 32 → c ≠ Char.ofNat m := by
      rintro m hm rfl
      refine hlow ?_
      have hall : ∀ k < 32, (Char.ofNat k).toNat = k := by decide +kernel
      rw [hall m hm]; exact hm
    have henc : encodeChar c = [c] := by
      simp only [encodeChar, if_neg hq, if_neg hb, if_neg (hne 8 (by decide)),
        if_neg (hne 9 (by decide)), if_neg (hne 10 (by decide)),
        if_neg (hne 12 (by decide)), if_neg (hne 13 (by decide)), if_neg hlow]
    rw [henc, List.cons_append, List.nil_append, readPieces]
    simp only [if_neg hq, if_neg hb, if_neg hlow]

/-- A text is read back from its literal, whatever follows the closing quote. -/
theorem decode_encode (cs after : List Char) :
    decode (encode cs ++ '"' :: after) = some (some (String.ofList cs), after) := by
  suffices h : ∃ ps, joinPieces none ps = some cs ∧
      readPieces (encode cs ++ '"' :: after) = some (ps, after) by
    obtain ⟨ps, hj, hr⟩ := h
    simp [decode, hr, hj]
  induction cs with
  | nil => exact ⟨[], rfl, by rw [encode, List.flatMap_nil, List.nil_append, readPieces]; rfl⟩
  | cons c cs ih =>
    obtain ⟨ps, hj, hr⟩ := ih
    obtain ⟨p, hp, hread⟩ := readPieces_encodeChar c (encode cs ++ '"' :: after)
    refine ⟨p :: ps, by rw [hp, hj]; rfl, ?_⟩
    rw [encode, List.flatMap_cons, List.append_assoc]
    rw [show List.flatMap encodeChar cs = encode cs from rfl, hread, hr]
    rfl

end Literal
end Json
end WireLambda
