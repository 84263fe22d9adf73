import WireLambda.Text.Quoted

/-!
# Reading a text character by character

Three readers of this library go through a text one character at a time and give up at
the first character they have no meaning for: the integer reader and the text reader
want a digit, and the text writer wants a letter of the alphabet.  Each of them reports
*which* character it was and *where*, counted in characters.

`readEach` is that walk, once.  `readEach_eq_ok_iff` and `readEach_eq_error_iff` are all
that the readers need to know about it: it succeeds exactly when every character has a
meaning, and otherwise reports the first that has none.  Where each meaning is written as one
character, that is to succeed on what is written (`readEach_eq_ok_iff_eq_map`).
-/

namespace WireLambda
namespace Base94

/-- Why a text cannot be read or written in base 94. -/
inductive CodecError where
  /-- A character of a token body that carries no digit. -/
  | invalidDigit (ch : Char) (position : Nat)
  /-- A character of a text that is not a letter of the alphabet. -/
  | notInAlphabet (ch : Char) (position : Nat)
  deriving DecidableEq

/-- What a reader is told: the character, and where it stands. -/
def CodecError.message : CodecError → String
  | .invalidDigit ch position =>
      s!"invalid base-94 digit {Text.quoteChar ch} at position {position}"
  | .notInAlphabet ch position =>
      s!"character {Text.quoteChar ch} at position {position} is not in the string alphabet"

/-- Reads every character through `meaning`, counting positions from `position`, and
stops with `refuse` at the first character without a meaning. -/
def readEach {α : Type} (meaning : Char → Option α) (refuse : Char → Nat → CodecError) :
    Nat → List Char → Except CodecError (List α)
  | _, [] => .ok []
  | position, c :: cs =>
      match meaning c with
      | none => .error (refuse c position)
      | some a => (readEach meaning refuse (position + 1) cs).map (a :: ·)

variable {α : Type} {meaning : Char → Option α} {refuse : Char → Nat → CodecError}

@[simp] theorem readEach_nil (position : Nat) :
    readEach meaning refuse position [] = .ok [] := rfl

theorem readEach_cons_none {position : Nat} {c : Char} {cs : List Char}
    (h : meaning c = none) :
    readEach meaning refuse position (c :: cs) = .error (refuse c position) := by
  simp [readEach, h]

theorem readEach_cons_some {position : Nat} {c : Char} {cs : List Char} {a : α}
    (h : meaning c = some a) :
    readEach meaning refuse position (c :: cs) =
      (readEach meaning refuse (position + 1) cs).map (a :: ·) := by
  simp [readEach, h]

/-- The walk succeeds exactly when each character has a meaning, and then gives the
meanings in order. -/
theorem readEach_eq_ok_iff {position : Nat} {cs : List Char} {as : List α} :
    readEach meaning refuse position cs = .ok as ↔ cs.map meaning = as.map some := by
  induction cs generalizing position as with
  | nil => cases as <;> simp
  | cons c cs ih =>
    cases hc : meaning c with
    | none => rw [readEach_cons_none hc]; cases as <;> simp [hc]
    | some a =>
      rw [readEach_cons_some hc]
      cases as with
      | nil =>
        cases hr : readEach meaning refuse (position + 1) cs <;> simp [Except.map]
      | cons b bs =>
        have htail := @ih (position + 1) bs
        cases hr : readEach meaning refuse (position + 1) cs with
        | error e =>
          rw [hr] at htail
          simp only [reduceCtorEq, false_iff] at htail
          simp [Except.map, hc, htail]
        | ok ds =>
          rw [hr] at htail
          simp only [Except.ok.injEq] at htail
          simp [Except.map, hc, htail]

/-- If to have a meaning is to be written for it, the walk succeeds exactly on what is
written for the meanings. -/
theorem readEach_eq_ok_iff_eq_map {write : α → Char}
    (hwrite : ∀ c a, meaning c = some a ↔ c = write a) {position : Nat} {cs : List Char}
    {as : List α} :
    readEach meaning refuse position cs = .ok as ↔ cs = as.map write := by
  rw [readEach_eq_ok_iff]
  induction cs generalizing as with
  | nil => cases as <;> simp
  | cons c cs ih =>
    cases as with
    | nil => simp
    | cons a as => simp only [List.map_cons, List.cons.injEq, hwrite, ih]

/-- The walk fails exactly when some character has no meaning, and the first such is the
one reported, whatever follows it. -/
theorem readEach_eq_error_iff {position : Nat} {cs : List Char} {e : CodecError} :
    readEach meaning refuse position cs = .error e ↔
      ∃ before c after, cs = before ++ c :: after ∧ (∀ b ∈ before, meaning b ≠ none) ∧
        meaning c = none ∧ e = refuse c (position + before.length) := by
  induction cs generalizing position with
  | nil => simp
  | cons c cs ih =>
    cases hc : meaning c with
    | none =>
      rw [readEach_cons_none hc]
      constructor
      · intro h
        exact ⟨[], c, cs, rfl, by simp, hc, (Except.error.inj h).symm⟩
      · rintro ⟨before, d, after, hcs, hbefore, -, rfl⟩
        cases before with
        | nil => obtain ⟨rfl, -⟩ := List.cons.inj hcs; rfl
        | cons b before =>
          obtain ⟨rfl, -⟩ := List.cons.inj hcs
          exact absurd hc (hbefore c (by simp))
    | some a =>
      rw [readEach_cons_some hc]
      have htail : (readEach meaning refuse (position + 1) cs).map (a :: ·) = .error e ↔
          readEach meaning refuse (position + 1) cs = .error e := by
        cases readEach meaning refuse (position + 1) cs <;> simp [Except.map]
      rw [htail, ih]
      constructor
      · rintro ⟨before, d, after, rfl, hbefore, hd, rfl⟩
        refine ⟨c :: before, d, after, rfl, ?_, hd, ?_⟩
        · intro b hb
          rcases List.mem_cons.1 hb with rfl | hb
          · simp [hc]
          · exact hbefore b hb
        · simp only [List.length_cons]; congr 1; omega
      · rintro ⟨before, d, after, hcs, hbefore, hd, rfl⟩
        cases before with
        | nil => obtain ⟨rfl, -⟩ := List.cons.inj hcs; simp [hc] at hd
        | cons b before =>
          obtain ⟨rfl, rfl⟩ := List.cons.inj hcs
          refine ⟨before, d, after, rfl, fun x hx => hbefore x (by simp [hx]), hd, ?_⟩
          simp only [List.length_cons]; congr 1; omega

end Base94
end WireLambda
