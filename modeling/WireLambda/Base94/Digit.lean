/-!
# Base-94 digits

Every wire token is spelled with the printable ASCII characters from `!` to `~`.
There are 94 of them, and each carries one digit: `!` is zero, and the digit of a
character is its distance from `!`.

Two things are read off a run of digits.  A number reads them by place value
(`Base94.Natural`), and a text reads each of them as a letter of a fixed alphabet
(`Base94.Letters`).  Both go through the digits, so a character that is no digit is
refused in the same way whichever is wanted.

`ofChar?_toChar` and `toChar_of_ofChar?` say that characters and digits are the same
thing on the printable range, and `ofChar?_eq_none_iff` names what is refused.
-/

namespace WireLambda
namespace Base94

/-- The number of digits. -/
def base : Nat := 94

/-- The code point of the character that carries the digit zero. -/
def digitOffset : Nat := 33

/-- One base-94 digit. -/
abbrev Digit := Fin base

namespace Digit

/-- The character that carries a digit. -/
def toChar (d : Digit) : Char := Char.ofNat (d.val + digitOffset)

/-- The digit that a character carries, for the characters from `!` to `~`. -/
def ofChar? (c : Char) : Option Digit :=
  if h : digitOffset ≤ c.toNat ∧ c.toNat - digitOffset < base then
    some ⟨c.toNat - digitOffset, h.2⟩
  else none

theorem toNat_toChar (d : Digit) : d.toChar.toNat = d.val + digitOffset := by
  revert d; decide

@[simp] theorem ofChar?_toChar (d : Digit) : ofChar? d.toChar = some d := by
  revert d; decide

theorem toChar_of_ofChar? {c : Char} {d : Digit} (h : ofChar? c = some d) :
    d.toChar = c := by
  unfold ofChar? at h
  split at h
  · next hc =>
    obtain rfl := Option.some.inj h
    have hsum : c.toNat - digitOffset + digitOffset = c.toNat := Nat.sub_add_cancel hc.1
    simp only [toChar, hsum, Char.ofNat_toNat]
  · exact absurd h (by simp)

theorem ofChar?_eq_some_iff {c : Char} {d : Digit} :
    ofChar? c = some d ↔ c = d.toChar :=
  ⟨fun h => (toChar_of_ofChar? h).symm, fun h => h ▸ ofChar?_toChar d⟩

/-- A character is refused exactly when it lies outside the range from `!` to `~`. -/
theorem ofChar?_eq_none_iff {c : Char} :
    ofChar? c = none ↔ ¬ ('!' ≤ c ∧ c ≤ '~') := by
  have hlo : '!' ≤ c ↔ 33 ≤ c.toNat := by
    rw [Char.le_def, UInt32.le_iff_toNat_le]; exact Iff.rfl
  have hhi : c ≤ '~' ↔ c.toNat ≤ 126 := by
    rw [Char.le_def, UInt32.le_iff_toNat_le]; exact Iff.rfl
  rw [hlo, hhi]
  by_cases h : digitOffset ≤ c.toNat ∧ c.toNat - digitOffset < base
  · simp only [ofChar?, dif_pos h, reduceCtorEq, false_iff]
    simp only [base, digitOffset] at h
    omega
  · simp only [ofChar?, dif_neg h, true_iff]
    simp only [base, digitOffset] at h
    omega

theorem toChar_injective {d e : Digit} (h : d.toChar = e.toChar) : d = e := by
  have hd := ofChar?_toChar d
  rw [h, ofChar?_toChar] at hd
  exact (Option.some.inj hd).symm

/-- The digit zero is carried by `!` and by no other character. -/
theorem toChar_eq_bang_iff (d : Digit) : d.toChar = '!' ↔ d.val = 0 := by
  revert d; decide

end Digit

end Base94
end WireLambda
