import Mathlib.Data.List.Forall2
import Mathlib.Data.List.Induction
import Mathlib.Data.Nat.Digits.Defs
import WireLambda.Proofs.Canonical

/-!
# What a token body spells

A body of characters from `!` to `~` spells a run of digits, and the digits are read in two
ways: as a number by their places, and as a text letter by letter.  Both readings are exact,
and both refuse the same bodies for the same character.

* A number has one body without leading `!`, and all bodies of the number are this one behind
  some number of `!` (`numbers_have_one_shortest_body`).  The digits are those that
  `Nat.digits` gives, and the number of a body is what `Nat.ofDigits` makes of its digits.
* A text over the alphabet has one body, which is as long as the text, and the correspondence
  is by single characters (`Stands`, `decodeString_eq_ok_iff_forall₂`), so it respects joining
  (`texts_have_one_body_each`).

In both directions a failure names the first character that is to blame, and the number of
characters before it (`IsFirstOutside`).
-/

namespace WireLambda
namespace Base94

/-! ## The characters that carry digits -/

/-- The characters from `!` to `~`. -/
def IsGraphic (c : Char) : Prop := '!' ≤ c ∧ c ≤ '~'

instance (c : Char) : Decidable (IsGraphic c) :=
  inferInstanceAs (Decidable ('!' ≤ c ∧ c ≤ '~'))

theorem isGraphic_iff {c : Char} : IsGraphic c ↔ ∃ d : Digit, c = d.toChar := by
  have hdigit : IsGraphic c ↔ Digit.ofChar? c ≠ none := by
    rw [ne_eq, Digit.ofChar?_eq_none_iff, Classical.not_not, IsGraphic]
  rw [hdigit, Option.ne_none_iff_exists']
  exact exists_congr fun d => Digit.ofChar?_eq_some_iff

/-- The first character of a text that does not have a property, and the number of characters
before it. -/
def IsFirstOutside (P : Char → Prop) (text : String) (c : Char) (position : Nat) : Prop :=
  ∃ before after, text.toList = before ++ c :: after ∧ (∀ b ∈ before, P b) ∧ ¬ P c ∧
    position = before.length

/-- If the characters with a meaning are those with a property, the walk fails for the first
character without the property. -/
theorem readEach_eq_error_iff_isFirstOutside {α : Type} {meaning : Char → Option α}
    {refuse : Char → Nat → CodecError} {P : Char → Prop} (hP : ∀ c, meaning c = none ↔ ¬ P c)
    {text : String} {err : CodecError} :
    readEach meaning refuse 0 text.toList = .error err ↔
      ∃ c position, IsFirstOutside P text c position ∧ err = refuse c position := by
  have hsome : ∀ c, meaning c ≠ none ↔ P c := fun c => by
    rw [ne_eq, hP, Classical.not_not]
  rw [readEach_eq_error_iff]
  simp only [hsome, hP, Nat.zero_add]
  constructor
  · rintro ⟨before, c, after, htext, hbefore, hc, rfl⟩
    exact ⟨c, _, ⟨before, after, htext, hbefore, hc, rfl⟩, rfl⟩
  · rintro ⟨c, _, ⟨before, after, htext, hbefore, hc, rfl⟩, rfl⟩
    exact ⟨before, c, after, htext, hbefore, hc, rfl⟩

theorem bodyDigits_eq_error_iff {body : String} {err : CodecError} :
    bodyDigits body = .error err ↔
      ∃ c position, IsFirstOutside IsGraphic body c position ∧ err = .invalidDigit c position :=
  readEach_eq_error_iff_isFirstOutside fun _ => Digit.ofChar?_eq_none_iff

theorem encodeString_eq_error_iff_isFirstOutside {text : String} {err : CodecError} :
    encodeString text = .error err ↔ ∃ c position,
      IsFirstOutside (· ∈ letters) text c position ∧ err = .notInAlphabet c position := by
  rw [encodeString, map_eq_error_iff]
  exact readEach_eq_error_iff_isFirstOutside fun _ => letter?_eq_none_iff

theorem exists_eq_spell_iff {body : String} :
    (∃ ds, body = spell ds) ↔ ∀ c ∈ body.toList, IsGraphic c := by
  constructor
  · rintro ⟨ds, rfl⟩
    exact exists_decodeInteger_iff.1 ⟨_, decodeInteger_spell ds⟩
  · intro h
    obtain ⟨n, hn⟩ := exists_decodeInteger_iff.2 h
    obtain ⟨ds, hds, -⟩ := decodeInteger_eq_ok_iff_spell.1 hn
    exact ⟨ds, hds⟩

/-! ## Numbers -/

/-- The digits of a number are its digits in base 94. -/
theorem Natural.map_val_digitsFromLow (n : Nat) :
    (digitsFromLow n).map Fin.val = Nat.digits base n := by
  induction n using Nat.strongRecOn with
  | ind n ih =>
    by_cases h : n = 0
    · subst h
      rw [digitsFromLow_zero, Nat.digits_zero, List.map_nil]
    · have hpos := Nat.pos_of_ne_zero h
      rw [digitsFromLow_of_pos hpos, Nat.digits_def' (by decide) hpos, List.map_cons,
        ih _ (Nat.div_lt_self hpos (by decide))]

/-- The number of a run of digits is their value in base 94. -/
theorem Natural.ofDigits_eq (ds : List Digit) :
    ofDigits ds = Nat.ofDigits base (ds.map Fin.val).reverse := by
  induction ds using List.reverseRecOn with
  | nil => rfl
  | append_singleton ds d ih =>
    rw [ofDigits_append_singleton, List.map_append, List.map_singleton, List.reverse_append,
      List.reverse_singleton, List.singleton_append, Nat.ofDigits_cons, ih, Nat.mul_comm,
      Nat.add_comm]

theorem toNat_toChar_sub (d : Digit) : d.toChar.toNat - digitOffset = d.val := by
  rw [Digit.toNat_toChar, Nat.add_sub_cancel]

theorem encodeIntegerFromLow_eq (n : Nat) :
    encodeIntegerFromLow n =
      String.ofList ((Nat.digits base n).map fun d => Char.ofNat (d + digitOffset)) := by
  rw [encodeIntegerFromLow, spell, ← Natural.map_val_digitsFromLow, List.map_map]
  rfl

theorem toList_encodeIntegerFromLow (n : Nat) :
    (encodeIntegerFromLow n).toList = (encodeInteger n).toList.reverse := by
  rw [encodeIntegerFromLow, encodeInteger, toList_spell, toList_spell, Natural.digits,
    List.map_reverse, List.reverse_reverse]

theorem encodeInteger_eq_empty_iff {n : Nat} : encodeInteger n = "" ↔ n = 0 := by
  rw [← String.toList_inj, encodeInteger, toList_spell, String.toList_empty, List.map_eq_nil_iff,
    Natural.digits_eq_nil_iff]

/-- The body of a number does not begin with the digit zero. -/
theorem head?_encodeInteger_ne (n : Nat) : (encodeInteger n).toList.head? ≠ some '!' := by
  rw [encodeInteger, toList_spell, List.head?_map]
  intro h
  obtain ⟨d, hd, hzero⟩ := Option.map_eq_some_iff.1 h
  exact Natural.digits_head_ne_zero hd ((Digit.toChar_eq_bang_iff d).1 hzero)

/-- The number of a body is the value of its digits. -/
theorem eq_ofDigits_of_decodeInteger {body : String} {n : Nat} (h : decodeInteger body = .ok n) :
    n = Nat.ofDigits base (body.toList.map fun c => c.toNat - digitOffset).reverse := by
  obtain ⟨ds, rfl, rfl⟩ := decodeInteger_eq_ok_iff_spell.1 h
  rw [Natural.ofDigits_eq, toList_spell, List.map_map]
  exact congrArg (fun l => Nat.ofDigits base l.reverse)
    (List.map_congr_left fun d _ => (toNat_toChar_sub d).symm)

/-- The bodies of numbers are those of which the first character is not `!`. -/
theorem exists_encodeInteger_eq_iff {body : String} :
    (∃ n, encodeInteger n = body) ↔
      (∀ c ∈ body.toList, IsGraphic c) ∧ body.toList.head? ≠ some '!' := by
  constructor
  · rintro ⟨n, rfl⟩
    exact ⟨exists_eq_spell_iff.1 ⟨_, rfl⟩, head?_encodeInteger_ne n⟩
  · rintro ⟨hgraphic, hhead⟩
    obtain ⟨n, hn⟩ := exists_decodeInteger_iff.2 hgraphic
    have hfix : body.toList.dropWhile (· == '!') = body.toList := by
      cases hlist : body.toList with
      | nil => rfl
      | cons c cs =>
        have hc : c ≠ '!' := fun hc => hhead (by rw [hlist, hc]; rfl)
        exact List.dropWhile_cons_of_neg (by simpa using hc)
    exact ⟨n, String.toList_inj.1 ((decodeInteger_eq_ok_iff.1 hn).symm.trans hfix)⟩

/-- **A number has one shortest body.**  Whatever the number, it is read back from the body that is
written for it.  This does not begin with `!`, is empty for zero alone, and turned round it has the
digits that base 94 gives the number.

Conversely a body is read exactly if its characters are all from `!` to `~`, and otherwise refused
for the first that is not.  It is read as the value of its digits, and the body of that number is
what is left of it without its leading `!`.  So the bodies of numbers are those that are read and do
not begin with `!`. -/
theorem numbers_have_one_shortest_body :
    (∀ n : Nat,
      decodeInteger (encodeInteger n) = .ok n ∧
      (encodeInteger n).toList.head? ≠ some '!' ∧
      (encodeInteger n = "" ↔ n = 0) ∧
      (encodeIntegerFromLow n).toList = (encodeInteger n).toList.reverse ∧
      encodeIntegerFromLow n =
        String.ofList ((Nat.digits base n).map fun d => Char.ofNat (d + digitOffset))) ∧
    ∀ body : String,
      ((∃ n, decodeInteger body = .ok n) ↔ ∀ c ∈ body.toList, IsGraphic c) ∧
      (∀ err, decodeInteger body = .error err ↔ ∃ c position,
        IsFirstOutside IsGraphic body c position ∧ err = .invalidDigit c position) ∧
      (∀ n, decodeInteger body = .ok n →
        n = Nat.ofDigits base (body.toList.map fun c => c.toNat - digitOffset).reverse ∧
        (encodeInteger n).toList = body.toList.dropWhile (· == '!')) ∧
      ((∃ n, encodeInteger n = body) ↔
        (∀ c ∈ body.toList, IsGraphic c) ∧ body.toList.head? ≠ some '!') := by
  refine ⟨fun n => ⟨decodeInteger_encodeInteger n, head?_encodeInteger_ne n,
    encodeInteger_eq_empty_iff, toList_encodeIntegerFromLow n, encodeIntegerFromLow_eq n⟩,
    fun body => ⟨exists_decodeInteger_iff, fun err => ?_, fun n hn => ?_,
      exists_encodeInteger_eq_iff⟩⟩
  · rw [decodeInteger, map_eq_error_iff, bodyDigits_eq_error_iff]
  · exact ⟨eq_ofDigits_of_decodeInteger hn, (decodeInteger_eq_ok_iff.1 hn).symm⟩

/-- The number 1337 behind two zeros, and a body that is refused for a letter of two bytes with a
space behind it. -/
theorem numbers_have_one_shortest_body_padded :
    decodeInteger "!!/6" = .ok 1337 ∧ (encodeInteger 1337).toList = ['/', '6'] ∧
      1337 = Nat.ofDigits base [21, 14, 0, 0] ∧
      decodeInteger "/é 6" = .error (.invalidDigit 'é' 1) := by
  obtain ⟨-, hbody⟩ := numbers_have_one_shortest_body
  obtain ⟨-, -, hread, -⟩ := hbody "!!/6"
  obtain ⟨-, hrefused, -, -⟩ := hbody "/é 6"
  have hpadded : decodeInteger "!!/6" = .ok 1337 := by decide +kernel
  obtain ⟨hvalue, hwritten⟩ := hread 1337 hpadded
  have hslash : ∀ b ∈ ['/'], IsGraphic b := List.forall_mem_singleton.2 (by decide)
  refine ⟨hpadded, hwritten, hvalue, (hrefused _).2 ⟨'é', 1, ⟨['/'], [' ', '6'], ?_⟩, rfl⟩⟩
  exact ⟨by decide +kernel, hslash, by decide, rfl⟩

/-! ## Texts -/

theorem exists_eq_textOf_iff {text : String} :
    (∃ ds, text = textOf ds) ↔ ∀ c ∈ text.toList, c ∈ letters := by
  rw [← exists_encodeString_iff]
  simp only [encodeString, map_eq_ok_iff, textDigits_eq_ok_iff]
  constructor
  · rintro ⟨ds, h⟩
    exact ⟨spell ds, ds, h, rfl⟩
  · rintro ⟨-, ds, h, -⟩
    exact ⟨ds, h⟩

theorem decodeString_eq_ok_iff_textOf {body text : String} :
    decodeString body = .ok text ↔ ∃ ds, body = spell ds ∧ text = textOf ds := by
  rw [decodeString, map_eq_ok_iff]
  simp only [bodyDigits_eq_ok_iff, @eq_comm _ _ text]

/-- Whether a character of a body stands for a letter: the letter has the place in the alphabet
that the digit of the character tells. -/
def Stands (c l : Char) : Prop := IsGraphic c ∧ letters[c.toNat - digitOffset]? = some l

theorem stands_iff {c l : Char} : Stands c l ↔ ∃ d : Digit, c = d.toChar ∧ l = letter d := by
  have hplace : ∀ d : Digit, letters[d.toChar.toNat - digitOffset]? = some (letter d) := by
    intro d
    rw [toNat_toChar_sub]
    exact List.getElem?_eq_getElem _
  rw [Stands, isGraphic_iff]
  constructor
  · rintro ⟨⟨d, rfl⟩, hl⟩
    rw [hplace] at hl
    exact ⟨d, rfl, (Option.some.inj hl).symm⟩
  · rintro ⟨d, rfl, rfl⟩
    exact ⟨⟨d, rfl⟩, hplace d⟩

/-- **Letter by letter.**  A body is read as a text exactly if each of its characters stands for the
letter in its place. -/
theorem decodeString_eq_ok_iff_forall₂ {body text : String} :
    decodeString body = .ok text ↔ List.Forall₂ Stands body.toList text.toList := by
  rw [decodeString_eq_ok_iff_textOf]
  constructor
  · rintro ⟨ds, rfl, rfl⟩
    rw [toList_spell, toList_textOf, List.forall₂_map_left_iff, List.forall₂_map_right_iff,
      List.forall₂_same]
    exact fun d _ => stands_iff.2 ⟨d, rfl, rfl⟩
  · intro h
    have hdigits : ∃ ds : List Digit,
        body.toList = ds.map Digit.toChar ∧ text.toList = ds.map letter := by
      generalize body.toList = cs, text.toList = ls at h
      induction h with
      | nil => exact ⟨[], rfl, rfl⟩
      | cons hcl _ ih =>
        obtain ⟨d, rfl, rfl⟩ := stands_iff.1 hcl
        obtain ⟨ds, rfl, rfl⟩ := ih
        exact ⟨d :: ds, rfl, rfl⟩
    obtain ⟨ds, hbody, htext⟩ := hdigits
    exact ⟨ds, by rw [← String.toList_inj, hbody, toList_spell],
      by rw [← String.toList_inj, htext, toList_textOf]⟩

theorem length_eq_of_decodeString {body text : String} (h : decodeString body = .ok text) :
    text.length = body.length := by
  rw [← String.length_toList, ← String.length_toList]
  exact (decodeString_eq_ok_iff_forall₂.1 h).length_eq.symm

/-- A text that is written digit by digit is cut where its digits are. -/
theorem append_eq_ofList_map_iff {f : Digit → Char} {s s' : String} {ds : List Digit} :
    s ++ s' = String.ofList (ds.map f) ↔ ∃ ds₁ ds₂, ds = ds₁ ++ ds₂ ∧
      s = String.ofList (ds₁.map f) ∧ s' = String.ofList (ds₂.map f) := by
  constructor
  · intro h
    have hlist : ds.map f = s.toList ++ s'.toList := by
      rw [← String.toList_append, h, String.toList_ofList]
    obtain ⟨ds₁, ds₂, rfl, h₁, h₂⟩ := List.map_eq_append_iff.1 hlist
    exact ⟨ds₁, ds₂, rfl, by rw [h₁, String.ofList_toList], by rw [h₂, String.ofList_toList]⟩
  · rintro ⟨ds₁, ds₂, rfl, rfl, rfl⟩
    rw [List.map_append, String.ofList_append]

/-- The text of two bodies in a row is the text of the one and then that of the other. -/
theorem decodeString_append_eq_ok_iff {body body' text : String} :
    decodeString (body ++ body') = .ok text ↔
      ∃ t t', decodeString body = .ok t ∧ decodeString body' = .ok t' ∧ text = t ++ t' := by
  constructor
  · intro h
    obtain ⟨ds, hbody, rfl⟩ := decodeString_eq_ok_iff_textOf.1 h
    obtain ⟨ds₁, ds₂, rfl, rfl, rfl⟩ := append_eq_ofList_map_iff.1 hbody
    exact ⟨textOf ds₁, textOf ds₂, decodeString_spell ds₁, decodeString_spell ds₂,
      (append_eq_ofList_map_iff.2 ⟨ds₁, ds₂, rfl, rfl, rfl⟩).symm⟩
  · rintro ⟨t, t', ht, ht', rfl⟩
    obtain ⟨ds₁, rfl, rfl⟩ := decodeString_eq_ok_iff_textOf.1 ht
    obtain ⟨ds₂, rfl, rfl⟩ := decodeString_eq_ok_iff_textOf.1 ht'
    exact decodeString_eq_ok_iff_textOf.2 ⟨ds₁ ++ ds₂,
      append_eq_ofList_map_iff.2 ⟨ds₁, ds₂, rfl, rfl, rfl⟩,
      append_eq_ofList_map_iff.2 ⟨ds₁, ds₂, rfl, rfl, rfl⟩⟩

/-- The body of two texts in a row is the body of the one and then that of the other. -/
theorem encodeString_append_eq_ok_iff {text text' body : String} :
    encodeString (text ++ text') = .ok body ↔
      ∃ b b', encodeString text = .ok b ∧ encodeString text' = .ok b' ∧ body = b ++ b' := by
  simp only [← decodeString_eq_ok_iff]
  constructor
  · intro h
    obtain ⟨ds, rfl, htext⟩ := decodeString_eq_ok_iff_textOf.1 h
    obtain ⟨ds₁, ds₂, rfl, rfl, rfl⟩ := append_eq_ofList_map_iff.1 htext
    exact ⟨spell ds₁, spell ds₂, decodeString_spell ds₁, decodeString_spell ds₂,
      (append_eq_ofList_map_iff.2 ⟨ds₁, ds₂, rfl, rfl, rfl⟩).symm⟩
  · rintro ⟨b, b', hb, hb', rfl⟩
    exact decodeString_append_eq_ok_iff.2 ⟨text, text', hb, hb', rfl⟩

/-- **Every text over the alphabet has one body, of its length.**  A body of characters from `!` to
`~` is read as a text over the alphabet, and is what is written for that text; a text over the
alphabet is written as a body, and is what that body is read as.  Text and body correspond character
by character, so they are of one length, and of what is joined the parts correspond.

Any other body is refused for its first character that is not from `!` to `~`, and any other text
for its first one that is not in the alphabet, whatever follows. -/
theorem texts_have_one_body_each :
    (∀ body : String, (∀ c ∈ body.toList, IsGraphic c) → ∃ text,
      decodeString body = .ok text ∧ encodeString text = .ok body ∧
        (∀ c ∈ text.toList, c ∈ letters) ∧ text.length = body.length) ∧
    (∀ text : String, (∀ c ∈ text.toList, c ∈ letters) → ∃ body,
      encodeString text = .ok body ∧ decodeString body = .ok text ∧
        (∀ c ∈ body.toList, IsGraphic c) ∧ body.length = text.length) ∧
    (∀ body text, decodeString body = .ok text ↔ List.Forall₂ Stands body.toList text.toList) ∧
    (∀ body body' text, decodeString (body ++ body') = .ok text ↔
      ∃ t t', decodeString body = .ok t ∧ decodeString body' = .ok t' ∧ text = t ++ t') ∧
    (∀ text text' body, encodeString (text ++ text') = .ok body ↔
      ∃ b b', encodeString text = .ok b ∧ encodeString text' = .ok b' ∧ body = b ++ b') ∧
    (∀ body err, decodeString body = .error err ↔ ∃ c position,
      IsFirstOutside IsGraphic body c position ∧ err = .invalidDigit c position) ∧
    ∀ text err, encodeString text = .error err ↔ ∃ c position,
      IsFirstOutside (· ∈ letters) text c position ∧ err = .notInAlphabet c position := by
  refine ⟨fun body h => ?_, fun text h => ?_, fun _ _ => decodeString_eq_ok_iff_forall₂,
    fun _ _ _ => decodeString_append_eq_ok_iff, fun _ _ _ => encodeString_append_eq_ok_iff,
    fun body err => ?_, fun _ _ => encodeString_eq_error_iff_isFirstOutside⟩
  · obtain ⟨ds, rfl⟩ := exists_eq_spell_iff.2 h
    have hread := decodeString_spell ds
    exact ⟨textOf ds, hread, encodeString_textOf ds, exists_eq_textOf_iff.1 ⟨ds, rfl⟩,
      length_eq_of_decodeString hread⟩
  · obtain ⟨ds, rfl⟩ := exists_eq_textOf_iff.2 h
    have hread := decodeString_spell ds
    exact ⟨spell ds, encodeString_textOf ds, hread, exists_eq_spell_iff.1 ⟨ds, rfl⟩,
      (length_eq_of_decodeString hread).symm⟩
  · rw [decodeString, map_eq_error_iff, bodyDigits_eq_error_iff]

/-- A greeting with a space and a line feed, which are letters, and a body of its length; a text
with a letter of two bytes, which is none, is refused for it and not for the tabulator behind it. -/
theorem texts_have_one_body_each_greeting :
    "Hi you\n".toList ⊆ letters ∧
      (∃ body, encodeString "Hi you\n" = .ok body ∧ decodeString body = .ok "Hi you\n" ∧
        (∀ c ∈ body.toList, IsGraphic c) ∧ body.length = 7) ∧
      (∀ c ∈ "B%~".toList, IsGraphic c) ∧
      (∃ text, decodeString "B%~" = .ok text ∧ encodeString text = .ok "B%~" ∧
        (∀ c ∈ text.toList, c ∈ letters) ∧ text.length = 3) ∧
      encodeString "olé\t" = .error (.notInAlphabet 'é' 2) := by
  obtain ⟨hread, hwritten, -, -, -, -, hrefused⟩ := texts_have_one_body_each
  have hletters : "Hi you\n".toList ⊆ letters := by decide +kernel
  have hgraphic : ∀ c ∈ "B%~".toList, IsGraphic c :=
    @of_decide_eq_true _ (List.decidableBAll IsGraphic _) rfl
  have hbefore : ['o', 'l'] ⊆ letters := by decide +kernel
  refine ⟨hletters, hwritten _ fun c hc => hletters hc, hgraphic, hread _ hgraphic,
    (hrefused _ _).2 ⟨'é', 2, ⟨['o', 'l'], ['\t'], ?_⟩, rfl⟩⟩
  exact ⟨by decide +kernel, fun c hc => hbefore hc, by decide +kernel, rfl⟩

end Base94
end WireLambda
