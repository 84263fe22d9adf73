import WireLambda.Base94.Natural

/-!
# Texts in base 94

A text travels as one digit for each of its characters.  The digit is not the
character's code point: it is the place of the character in a fixed alphabet of 94
letters, which holds the lower-case letters first and ends with the space and the line
feed.  A character outside the alphabet has no digit, so not every text can be sent.

`letter?_letter` and `letter_of_letter?` say that the alphabet lists its letters without
repetition, which makes both directions of the text codec exact.
-/

namespace WireLambda
namespace Base94

/-- The letters in the order of their digits. -/
def letters : List Char :=
  ['a', 'b', 'c', 'd', 'e', 'f', 'g', 'h', 'i', 'j', 'k', 'l', 'm', 'n', 'o', 'p', 'q', 'r',
    's', 't', 'u', 'v', 'w', 'x', 'y', 'z', 'A', 'B', 'C', 'D', 'E', 'F', 'G', 'H', 'I', 'J',
    'K', 'L', 'M', 'N', 'O', 'P', 'Q', 'R', 'S', 'T', 'U', 'V', 'W', 'X', 'Y', 'Z', '0', '1',
    '2', '3', '4', '5', '6', '7', '8', '9', '!', '"', '#', '$', '%', '&', '\'', '(', ')', '*',
    '+', ',', '-', '.', '/', ':', ';', '<', '=', '>', '?', '@', '[', '\\', ']', '^', '_',
    '\x60', '|', '~', ' ', '\n']

/-- The letters as one text. -/
def alphabet : String := String.ofList letters

theorem length_letters : letters.length = base := by decide

/-- The letter that a digit stands for. -/
def letter (d : Digit) : Char :=
  letters.get ⟨d.val, Nat.lt_of_lt_of_eq d.isLt length_letters.symm⟩

/-- The digit that stands for a character, if it is a letter of the alphabet. -/
def letter? (c : Char) : Option Digit :=
  if h : letters.idxOf c < base then some ⟨letters.idxOf c, h⟩ else none

/-! ## The alphabet has no repetitions -/

theorem letters_nodup : letters.Nodup := by decide +kernel

@[simp] theorem letter?_letter (d : Digit) : letter? (letter d) = some d := by
  have hidx : letters.idxOf (letter d) = d.val := letters_nodup.idxOf_getElem _ _
  simp [letter?, hidx]

theorem letter_of_letter? {c : Char} {d : Digit} (h : letter? c = some d) : letter d = c := by
  unfold letter? at h
  split at h
  · next hc =>
    obtain rfl := Option.some.inj h
    simp [letter]
  · exact absurd h (by simp)

theorem letter?_eq_some_iff {c : Char} {d : Digit} : letter? c = some d ↔ c = letter d :=
  ⟨fun h => (letter_of_letter? h).symm, fun h => h ▸ letter?_letter d⟩

theorem letter_injective {d e : Digit} (h : letter d = letter e) : d = e := by
  have hd := letter?_letter d
  rw [h, letter?_letter] at hd
  exact (Option.some.inj hd).symm

theorem letter_mem (d : Digit) : letter d ∈ letters := List.get_mem _ _

/-- A character has a digit exactly when the alphabet lists it. -/
theorem letter?_eq_none_iff {c : Char} : letter? c = none ↔ c ∉ letters := by
  constructor
  · intro h hmem
    have hlt : letters.idxOf c < base := by
      rw [← length_letters]; exact List.idxOf_lt_length_of_mem hmem
    simp [letter?, hlt] at h
  · intro h
    cases hc : letter? c with
    | none => rfl
    | some d => exact absurd (letter_of_letter? hc ▸ letter_mem d) h

/-! ## Texts -/

/-- The text that a run of digits stands for. -/
def textOf (ds : List Digit) : String := String.ofList (ds.map letter)

/-- The digits of a text; the first character outside the alphabet is an error. -/
def textDigits (text : String) : Except CodecError (List Digit) :=
  readEach letter? .notInAlphabet 0 text.toList

/-- The text that a token body stands for. -/
def decodeString (body : String) : Except CodecError String :=
  (bodyDigits body).map textOf

/-- The body that stands for a text. -/
def encodeString (text : String) : Except CodecError String :=
  (textDigits text).map spell

@[simp] theorem toList_textOf (ds : List Digit) : (textOf ds).toList = ds.map letter := by
  simp [textOf]

/-- A text has digits exactly when it is the text of those digits. -/
theorem textDigits_eq_ok_iff {text : String} {ds : List Digit} :
    textDigits text = .ok ds ↔ text = textOf ds := by
  rw [textDigits, readEach_eq_ok_iff_eq_map fun _ _ => letter?_eq_some_iff,
    ← String.toList_inj, toList_textOf]

@[simp] theorem textDigits_textOf (ds : List Digit) : textDigits (textOf ds) = .ok ds :=
  textDigits_eq_ok_iff.2 rfl

@[simp] theorem decodeString_spell (ds : List Digit) :
    decodeString (spell ds) = .ok (textOf ds) := by
  simp [decodeString, Except.map]

@[simp] theorem encodeString_textOf (ds : List Digit) :
    encodeString (textOf ds) = .ok (spell ds) := by
  simp [encodeString, Except.map]

end Base94
end WireLambda
