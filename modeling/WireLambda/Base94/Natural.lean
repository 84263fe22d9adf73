import WireLambda.Base94.Digit
import WireLambda.Base94.Spelling

/-!
# Natural numbers in base 94

A token body spells a number by its base-94 digits, most significant first, and the
empty body spells zero.  The digits of a number (`digits`) never begin with zero, but a
body may: `ofDigits` reads any run of digits.

`ofDigits_digits` and `digits_ofDigits` are the two halves of the correspondence: every
number is read back from its digits, and writing a run of digits again removes its
leading zeros and nothing else.
-/

namespace WireLambda
namespace Base94
namespace Natural

/-- The number spelled by a run of digits, most significant first. -/
def ofDigits (ds : List Digit) : Nat := ds.foldl (fun n d => n * base + d.val) 0

/-- The digits of a number, least significant first; none for zero. -/
def digitsFromLow (n : Nat) : List Digit :=
  if h : n = 0 then []
  else ⟨n % base, Nat.mod_lt n (by decide)⟩ :: digitsFromLow (n / base)
termination_by n
decreasing_by exact Nat.div_lt_self (Nat.pos_of_ne_zero h) (by decide)

/-- The digits of a number, most significant first; none for zero. -/
def digits (n : Nat) : List Digit := (digitsFromLow n).reverse

/-! ## Digits of a number -/

@[simp] theorem digitsFromLow_zero : digitsFromLow 0 = [] := by
  rw [digitsFromLow]; simp

theorem digitsFromLow_of_pos {n : Nat} (h : 0 < n) :
    digitsFromLow n =
      ⟨n % base, Nat.mod_lt n (by decide)⟩ :: digitsFromLow (n / base) := by
  rw [digitsFromLow, dif_neg (Nat.ne_of_gt h)]

@[simp] theorem digits_zero : digits 0 = [] := by simp [digits]

theorem digits_of_pos {n : Nat} (h : 0 < n) :
    digits n = digits (n / base) ++ [⟨n % base, Nat.mod_lt n (by decide)⟩] := by
  simp [digits, digitsFromLow_of_pos h]

@[simp] theorem ofDigits_nil : ofDigits [] = 0 := rfl

@[simp] theorem ofDigits_append_singleton (ds : List Digit) (d : Digit) :
    ofDigits (ds ++ [d]) = ofDigits ds * base + d.val := by
  simp [ofDigits]

/-- A number is read back from its digits. -/
@[simp] theorem ofDigits_digits (n : Nat) : ofDigits (digits n) = n := by
  induction n using Nat.strongRecOn with
  | ind n ih =>
    by_cases h : n = 0
    · subst h; simp
    · have hpos := Nat.pos_of_ne_zero h
      rw [digits_of_pos hpos, ofDigits_append_singleton,
        ih _ (Nat.div_lt_self hpos (by decide))]
      exact Nat.div_add_mod' n base

theorem digits_eq_nil_iff {n : Nat} : digits n = [] ↔ n = 0 := by
  constructor
  · intro h; rw [← ofDigits_digits n, h]; rfl
  · rintro rfl; simp

/-- The digits of a positive number end in those of its quotient: appending a digit to
the digits of `n` is multiplying by the base and adding the digit, unless both are
zero. -/
theorem digits_mul_add (n : Nat) (d : Digit) (h : 0 < n ∨ 0 < d.val) :
    digits (n * base + d.val) = digits n ++ [d] := by
  have hpos : 0 < n * base + d.val := by
    rcases h with h | h
    · exact Nat.add_pos_left (Nat.mul_pos h (by decide)) _
    · exact Nat.add_pos_right _ h
  have hdiv : (n * base + d.val) / base = n := by
    rw [Nat.mul_comm, Nat.mul_add_div (by decide), Nat.div_eq_of_lt d.isLt, Nat.add_zero]
  have hmod : (n * base + d.val) % base = d.val := by
    rw [Nat.mul_comm, Nat.mul_add_mod, Nat.mod_eq_of_lt d.isLt]
  rw [digits_of_pos hpos]
  simp only [hdiv, hmod]

/-- Reading a run of digits and writing the number again removes the leading zeros. -/
theorem digits_ofDigits (ds : List Digit) :
    digits (ofDigits ds) = ds.dropWhile (fun d => d.val == 0) := by
  have key : ∀ (ds : List Digit) (n : Nat),
      digits (ds.foldl (fun n d => n * base + d.val) n) =
        if n = 0 then ds.dropWhile (fun d => d.val == 0) else digits n ++ ds := by
    intro ds
    induction ds with
    | nil => intro n; by_cases h : n = 0 <;> simp [h]
    | cons d ds ih =>
      intro n
      rw [List.foldl_cons, ih]
      by_cases hn : n = 0
      · subst hn
        by_cases hd : d.val = 0
        · simp [hd]
        · have hone := digits_mul_add 0 d (Or.inr (Nat.pos_of_ne_zero hd))
          simp only [Nat.zero_mul, Nat.zero_add, digits_zero, List.nil_append] at hone
          simp [hd, hone]
      · have hsum : n * base + d.val ≠ 0 := fun h => hn <| by
          rcases Nat.mul_eq_zero.1 (Nat.eq_zero_of_add_eq_zero_right h) with h | h
          · exact h
          · exact absurd h (by decide)
        rw [if_neg hsum, if_neg hn, digits_mul_add n d (Or.inl (Nat.pos_of_ne_zero hn))]
        simp
  exact key ds 0

/-- The most significant digit of a number is not zero. -/
theorem digits_head_ne_zero {n : Nat} {d : Digit} (h : (digits n).head? = some d) :
    d.val ≠ 0 := by
  intro hd
  have hfix : (digits n).dropWhile (fun d => d.val == 0) = digits n := by
    rw [← digits_ofDigits, ofDigits_digits]
  cases hds : digits n with
  | nil => rw [hds] at h; simp at h
  | cons e es =>
    rw [hds] at h hfix
    simp only [List.head?_cons, Option.some.injEq] at h
    subst h
    have hlen := congrArg List.length hfix
    have hle := (List.dropWhile_suffix (l := es) (fun d : Digit => d.val == 0)).length_le
    simp only [List.dropWhile_cons, hd, beq_self_eq_true, ↓reduceIte, List.length_cons] at hlen
    omega

end Natural

/-! ## Spelled numbers -/

/-- The digits spelled by a token body. -/
def bodyDigits (body : String) : Except CodecError (List Digit) :=
  readEach Digit.ofChar? .invalidDigit 0 body.toList

/-- The text that spells a run of digits. -/
def spell (ds : List Digit) : String := String.ofList (ds.map Digit.toChar)

/-- The number that a token body spells, most significant digit first. -/
def decodeInteger (body : String) : Except CodecError Nat :=
  (bodyDigits body).map Natural.ofDigits

/-- The body that spells a number, most significant digit first. -/
def encodeInteger (n : Nat) : String := spell (Natural.digits n)

/-- The digits of a number as characters, least significant digit first. -/
def encodeIntegerFromLow (n : Nat) : String := spell (Natural.digitsFromLow n)

@[simp] theorem toList_spell (ds : List Digit) :
    (spell ds).toList = ds.map Digit.toChar := by
  simp [spell]

/-- A body has a reading as digits exactly when it is the spelling of those digits. -/
theorem bodyDigits_eq_ok_iff {body : String} {ds : List Digit} :
    bodyDigits body = .ok ds ↔ body = spell ds := by
  rw [bodyDigits, readEach_eq_ok_iff_eq_map fun _ _ => Digit.ofChar?_eq_some_iff,
    ← String.toList_inj, toList_spell]

@[simp] theorem bodyDigits_spell (ds : List Digit) : bodyDigits (spell ds) = .ok ds :=
  bodyDigits_eq_ok_iff.2 rfl

@[simp] theorem decodeInteger_spell (ds : List Digit) :
    decodeInteger (spell ds) = .ok (Natural.ofDigits ds) := by
  simp [decodeInteger, Except.map]

@[simp] theorem decodeInteger_encodeInteger (n : Nat) :
    decodeInteger (encodeInteger n) = .ok n := by
  simp [encodeInteger]

end Base94
end WireLambda
