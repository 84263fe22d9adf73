import WireLambda.Eval.Fault
import WireLambda.Outcome

/-!
# What operators compute

An operator computes on scalars, after its operands were evaluated.  Integers have no
bounds; division goes toward zero and the remainder has the sign of the dividend.  Texts
are sequences of characters: `take` and `drop` count characters, and a negative count
counts from the end.  Both cut the text at the same place, `cutPosition`, which never
leaves it.

A count is an integer of any size, while the length of a text is a 64-bit word.  The place is
worked out in words (`cutPositionWord`): a count that has no word is replaced by the largest word
first (`saturate`), and then cut down to the length (`clamp`).  Nothing is lost by that, since the
length is a word, and never less than what is subtracted from it (`toNat_cutPositionWord`).

`#` and `$` read a text as a number and back through base 94.
-/

namespace WireLambda

/-- The place in a sequence of `length` characters that a signed count names: `n`
characters from the front, or `-n` from the back, and the nearest end if there are not so
many. -/
def cutPosition (n : Int) (length : Nat) : Nat :=
  let magnitude := min n.natAbs length
  if n < 0 then length - magnitude else magnitude

theorem cutPosition_le (n : Int) (length : Nat) : cutPosition n length ≤ length := by
  unfold cutPosition
  split
  · exact Nat.sub_le ..
  · exact Nat.min_le_right ..

theorem cutPosition_of_nonneg {n : Int} (h : 0 ≤ n) (length : Nat) :
    cutPosition n length = min n.natAbs length := by
  rw [cutPosition, if_neg (Int.not_lt.2 h)]

theorem cutPosition_of_neg {n : Int} (h : n < 0) (length : Nat) :
    cutPosition n length = length - n.natAbs := by
  rw [cutPosition, if_pos h]
  omega

/-! ## The place in words -/

/-- The word for a number, and the largest word for a number that has none. -/
def saturate (n : Nat) : UInt64 :=
  if n < UInt64.size then .ofNat n else .ofNat (UInt64.size - 1)

/-- The word for a number, and `length` for a number that is larger. -/
def clamp (n : Nat) (length : UInt64) : UInt64 :=
  if saturate n ≤ length then saturate n else length

/-- `cutPosition` in words. -/
def cutPositionWord (n : Int) (length : UInt64) : UInt64 :=
  if n < 0 then length - clamp n.natAbs length else clamp n.natAbs length

theorem toNat_saturate (n : Nat) : (saturate n).toNat = min n (UInt64.size - 1) := by
  have hsize : 0 < UInt64.size := by decide
  unfold saturate
  split
  · next h =>
    have hword : (UInt64.ofNat n).toNat = n := UInt64.toNat_ofNat_of_lt h
    omega
  · next h =>
    have hword : (UInt64.ofNat (UInt64.size - 1)).toNat = UInt64.size - 1 :=
      UInt64.toNat_ofNat_of_lt (by omega)
    omega

/-- Saturation is not seen below a length that is a word. -/
theorem toNat_clamp (n : Nat) (length : UInt64) :
    (clamp n length).toNat = min n length.toNat := by
  have hlength : length.toNat < UInt64.size := length.toNat_lt_size
  have hword := toNat_saturate n
  unfold clamp
  split
  · next h =>
    rw [UInt64.le_iff_toNat_le] at h
    omega
  · next h =>
    rw [UInt64.le_iff_toNat_le] at h
    omega

/-- The subtraction from the length has a result. -/
theorem clamp_le (n : Nat) (length : UInt64) : clamp n length ≤ length := by
  rw [UInt64.le_iff_toNat_le, toNat_clamp]
  exact Nat.min_le_right ..

/-- **Words suffice.**  Worked out in words, the place is the same. -/
theorem toNat_cutPositionWord (n : Int) (length : UInt64) :
    (cutPositionWord n length).toNat = cutPosition n length.toNat := by
  unfold cutPositionWord cutPosition
  split
  · rw [UInt64.toNat_sub_of_le _ _ (clamp_le _ _), toNat_clamp]
  · rw [toNat_clamp]

/-! ## Operators -/

open Base94

/-- The value of a unary operator on a scalar. -/
def UnaryOp.eval : UnaryOp → Scalar → Except Fault Scalar
  | negate, .int n => .ok (.int (-n))
  | not, .bool b => .ok (.bool !b)
  | strToInt, .str s =>
      (((encodeString s).bind decodeInteger).mapError .conversion).map fun n => .int n
  | intToStr, .int n =>
      ((decodeString (encodeInteger n.toNat)).mapError .conversion).map .str
  | op, s => .error (.unaryMismatch op s.kind)

/-- The value of a binary operator on two scalars. -/
def BinaryOp.eval : BinaryOp → Scalar → Scalar → Except Fault Scalar
  | add, .int a, .int b => .ok (.int (a + b))
  | sub, .int a, .int b => .ok (.int (a - b))
  | mul, .int a, .int b => .ok (.int (a * b))
  | div, .int a, .int b => if b = 0 then .error .divisionByZero else .ok (.int (a.tdiv b))
  | mod, .int a, .int b => if b = 0 then .error .divisionByZero else .ok (.int (a.tmod b))
  | lt, .int a, .int b => .ok (.bool (a < b))
  | gt, .int a, .int b => .ok (.bool (b < a))
  | eq, .int a, .int b => .ok (.bool (a == b))
  | eq, .bool a, .bool b => .ok (.bool (a == b))
  | eq, .str a, .str b => .ok (.bool (a == b))
  | or, .bool a, .bool b => .ok (.bool (a || b))
  | and, .bool a, .bool b => .ok (.bool (a && b))
  | concat, .str a, .str b => .ok (.str (a ++ b))
  -- the place as a number, which is that of the word by `toNat_cutPositionWord`
  | take, .int n, .str s =>
      .ok (.str (String.ofList (s.toList.take (cutPosition n s.toList.length))))
  | drop, .int n, .str s =>
      .ok (.str (String.ofList (s.toList.drop (cutPosition n s.toList.length))))
  | op, a, b => .error (.binaryMismatch op a.kind b.kind)

/-! ## How operators fail -/

theorem UnaryOp.eval_strToInt (s : String) :
    strToInt.eval (.str s) =
      (((encodeString s).bind decodeInteger).mapError .conversion).map
        fun n : Nat => .int n := by
  rw [UnaryOp.eval]
  cases (encodeString s).bind decodeInteger <;> rfl

theorem UnaryOp.eval_intToStr (n : Int) :
    intToStr.eval (.int n) =
      ((decodeString (encodeInteger n.toNat)).mapError .conversion).map .str := rfl

/-- A unary operator fails on an operand of the wrong kind, or in a conversion. -/
theorem UnaryOp.eval_eq_error {op : UnaryOp} {s : Scalar} {fault : Fault}
    (h : op.eval s = .error fault) :
    fault = .unaryMismatch op s.kind ∨ ∃ e, fault = .conversion e := by
  cases op with
  | negate =>
    cases s with
    | int n => exact absurd h (by simp [eval])
    | _ => exact .inl (Except.error.inj h).symm
  | not =>
    cases s with
    | bool b => exact absurd h (by simp [eval])
    | _ => exact .inl (Except.error.inj h).symm
  | strToInt =>
    cases s with
    | str s =>
      rw [eval_strToInt, map_eq_error_iff, mapError_eq_error_iff] at h
      obtain ⟨e, -, rfl⟩ := h
      exact .inr ⟨e, rfl⟩
    | _ => exact .inl (Except.error.inj h).symm
  | intToStr =>
    cases s with
    | int n =>
      rw [eval_intToStr, map_eq_error_iff, mapError_eq_error_iff] at h
      obtain ⟨e, -, rfl⟩ := h
      exact .inr ⟨e, rfl⟩
    | _ => exact .inl (Except.error.inj h).symm

/-- A binary operator fails on operands of the wrong kinds, or on a divisor that is zero. -/
theorem BinaryOp.eval_eq_error {op : BinaryOp} {a b : Scalar} {fault : Fault}
    (h : op.eval a b = .error fault) :
    fault = .binaryMismatch op a.kind b.kind ∨ fault = .divisionByZero := by
  unfold BinaryOp.eval at h
  split at h
  case h_4 | h_5 =>
    split at h
    · exact .inr (Except.error.inj h).symm
    · exact absurd h (by simp)
  case h_16 => exact .inl (Except.error.inj h).symm
  all_goals exact absurd h (by simp)

end WireLambda
