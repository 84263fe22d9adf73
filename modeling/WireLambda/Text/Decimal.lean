/-!
# Integers in decimal

An integer is written with a minus sign if it is negative and without leading zeros.
Reading is more liberal: a plus sign and leading zeros are accepted, and underscores may
stand anywhere behind the first digit.  At most one sign is read, and a digit has to
follow it at once.
-/

namespace WireLambda
namespace Text

/-- The value of a decimal digit. -/
def digitValue? (c : Char) : Option Nat :=
  if '0' ≤ c ∧ c ≤ '9' then some (c.toNat - 48) else none

/-- Reads the digits behind the first one, whose value so far is `n`; underscores are
passed over. -/
def readDigits (n : Nat) : List Char → Option Nat
  | [] => some n
  | c :: cs =>
      if c = '_' then readDigits n cs
      else (digitValue? c).bind fun d => readDigits (n * 10 + d) cs

/-- Reads a run of digits, which has to begin with one. -/
def readNat? : List Char → Option Nat
  | [] => none
  | c :: cs => (digitValue? c).bind fun d => readDigits d cs

/-- The integer that a text spells. -/
def readInt? (s : String) : Option Int :=
  match s.toList with
  | '-' :: cs => (readNat? cs).map fun n => -(n : Int)
  | '+' :: cs => (readNat? cs).map fun n => (n : Int)
  | cs => (readNat? cs).map fun n => (n : Int)

example : readInt? "-12" = some (-12) ∧ readInt? "+1_0_" = some 10 := by decide +kernel

example : readInt? "_1" = none ∧ readInt? "+-1" = none ∧ readInt? "-" = none := by
  decide +kernel

end Text
end WireLambda
