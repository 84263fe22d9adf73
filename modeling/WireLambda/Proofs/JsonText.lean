import Mathlib.Data.List.Chain
import WireLambda.Json.Value

/-!
# Values and their texts

A JSON value is read back from the text that is written for it, whatever the value is.

Writing goes in two steps, and each is undone by one step of reading.  A value is first written
down as lexemes, and these as characters.  Marks and string literals show where they end, and can
be followed by anything; a bare word ends where something stands that belongs to no word.  The
lexemes of a value never put two bare words next to each other (`Json.separates`), and of lexemes
with this property the characters say what the lexemes are (`Json.lexemes_flatMap_chars`).

Reading the lexemes of a value completes the value, inside whatever is still open around it and
whatever follows (`Json.readsBack`).  Both inductions go along the value (`Json.induction`); what
stands behind the first item of an array, or the first member of an object, is treated apart.

The main result is `Json.ofText?_text`.
-/

namespace WireLambda
namespace Json

/-! ## Single lexemes -/

namespace Lexeme

/-- Whether a lexeme is a bare word: a name or a number. -/
def isWord : Lexeme → Bool
  | null | bool _ | number _ => true
  | _ => false

end Lexeme

/-- A text that does not go on with a bare word. -/
def EndsWord (cs : List Char) : Prop := ∀ c ∈ cs.head?, isWordChar c = false

theorem isWordChar_of_isBlank {c : Char} (h : isBlank c = true) : isWordChar c = false := by
  simp only [isBlank, Bool.or_eq_true, beq_iff_eq] at h
  rcases h with ((rfl | rfl) | rfl) | rfl <;> decide

theorem of_mark? {c : Char} {mark : Lexeme} (h : mark? c = some mark) :
    isBlank c = false ∧ c ≠ '"' ∧ isWordChar c = false := by
  simp only [mark?] at h
  split_ifs at h <;> subst c <;> decide

theorem lexemes_mark {c : Char} {mark : Lexeme} (h : mark? c = some mark) (cs : List Char) :
    lexemes (c :: cs) = (lexemes cs).map (mark :: ·) := by
  obtain ⟨hblank, hquote, -⟩ := of_mark? h
  rw [lexemes, hblank, if_neg Bool.false_ne_true, if_neg hquote, h]

theorem lexemes_literal {cs rest : List Char} {s : Option String}
    (h : Literal.decode cs = some (s, rest)) :
    lexemes ('"' :: cs) = (lexemes rest).map (.string s :: ·) := by
  have hblank : isBlank '"' = false := by decide
  rw [lexemes, hblank, if_neg Bool.false_ne_true, if_pos rfl]
  split
  · next hnone => rw [h] at hnone; cases hnone
  · next s' rest' hsome =>
    rw [h] at hsome
    obtain ⟨rfl, rfl⟩ := Prod.mk.inj (Option.some.inj hsome)
    rfl

/-- A run of word characters is one bare word, if the text does not go on with it. -/
theorem lexemes_word {w rest : List Char} {l : Lexeme} (hne : w ≠ [])
    (hw : ∀ c ∈ w, isWordChar c = true) (hend : EndsWord rest) (h : word? w = some l) :
    lexemes (w ++ rest) = (lexemes rest).map (l :: ·) := by
  cases w with
  | nil => exact absurd rfl hne
  | cons c w =>
    have hc : isWordChar c = true := hw c List.mem_cons_self
    have hblank : ¬ isBlank c = true := fun hb => by
      rw [isWordChar_of_isBlank hb] at hc
      cases hc
    have hquote : c ≠ '"' := by
      rintro rfl
      exact absurd hc (by decide)
    have hmark : mark? c = none := by
      cases hm : mark? c with
      | none => rfl
      | some mark =>
        rw [(of_mark? hm).2.2] at hc
        cases hc
    have hword : (w ++ rest).takeWhile isWordChar = w ∧
        (w ++ rest).dropWhile isWordChar = rest := by
      have htail : ∀ d ∈ w, isWordChar d = true := fun d hd => hw d (List.mem_cons_of_mem c hd)
      rw [List.takeWhile_append_of_pos htail, List.dropWhile_append_of_pos htail]
      cases rest with
      | nil => simp
      | cons d rest =>
        have hd : isWordChar d = false := hend d rfl
        simp [hd]
    rw [List.cons_append, lexemes, if_neg hblank, if_neg hquote, hmark, hword.1, hword.2, h]

/-! ## Numbers -/

theorem isWordChar_of_isDigit {c : Char} (h : c.isDigit = true) : isWordChar c = true := by
  simp [isWordChar, Char.isAlphanum, h]

theorem isDigit_of_mem_toDigits {n : Nat} {c : Char} (h : c ∈ Nat.toDigits 10 n) :
    c.isDigit = true :=
  Nat.isDigit_of_mem_toDigits (by decide) (by decide) h

/-- A number begins with a digit. -/
theorem toDigits_ne_cons {c : Char} (hc : c.isDigit = false) (n : Nat) (cs : List Char) :
    Nat.toDigits 10 n ≠ c :: cs := by
  intro heq
  have hmem : c ∈ Nat.toDigits 10 n := by
    rw [heq]
    exact List.mem_cons_self
  rw [isDigit_of_mem_toDigits hmem] at hc
  cases hc

theorem decimalValue_toDigits (n : Nat) : decimalValue (Nat.toDigits 10 n) = n := by
  have hvalue : ∀ cs : List Char, decimalValue cs = Nat.ofDigitChars 10 cs 0 := by
    intro cs
    rw [decimalValue, Nat.ofDigitChars]
    simp only [Nat.mul_comm]
    rfl
  rw [hvalue, Nat.ofDigitChars_ten_toDigits]

/-- The first digit of a number is not zero, unless the number is. -/
theorem head?_toDigits_ne_zero {n : Nat} (h : 0 < n) : (Nat.toDigits 10 n).head? ≠ some '0' := by
  induction n using Nat.strongRecOn with
  | ind n ih =>
    by_cases hlt : n < 10
    · have hdigit : ∀ d < 10, 0 < d → Nat.digitChar d ≠ '0' := by decide
      rw [Nat.toDigits_of_lt_base hlt, List.head?_cons]
      exact fun heq => hdigit n hlt h (Option.some.inj heq)
    · rw [Nat.toDigits_of_base_le (by decide) (Nat.not_lt.1 hlt),
        List.head?_append_of_ne_nil _ Nat.toDigits_ne_nil]
      exact ih (n / 10) (by omega) (by omega)

theorem isIntegral_toDigits (n : Nat) : isIntegral (Nat.toDigits 10 n) = true := by
  rcases Nat.eq_zero_or_pos n with rfl | hpos
  · rfl
  · have hhead := head?_toDigits_ne_zero hpos
    unfold isIntegral
    split
    · next hnil => exact absurd hnil Nat.toDigits_ne_nil
    · rfl
    · next c cs hc hcs =>
      rw [hcs, List.head?_cons] at hhead
      exact bne_iff_ne.2 fun heq => hhead (congrArg some heq)

/-- A natural number is read back from its digits. -/
theorem word?_toDigits (n : Nat) : word? (Nat.toDigits 10 n) = some (.number (some n)) := by
  have hdigits : (Nat.toDigits 10 n).all Char.isDigit = true :=
    List.all_eq_true.2 fun c hc => isDigit_of_mem_toDigits hc
  have hnatural : ((Nat.toDigits 10 n).all Char.isDigit && isIntegral (Nat.toDigits 10 n)) =
      true := by
    rw [hdigits, isIntegral_toDigits]
    rfl
  rw [word?, if_neg (toDigits_ne_cons rfl n _), if_neg (toDigits_ne_cons rfl n _),
    if_neg (toDigits_ne_cons rfl n _), if_pos hnatural, decimalValue_toDigits]

/-! ## Literals -/

/-- Half of a pair alone is a literal that denotes no text. -/
theorem decode_half (rest : List Char) :
    Literal.decode ('\\' :: 'u' :: 'd' :: '8' :: '0' :: '0' :: '"' :: rest) =
      some (none, rest) := by
  have hescape : Literal.readEscape ('u' :: 'd' :: '8' :: '0' :: '0' :: '"' :: rest) =
      some (.unit 0xd800, '"' :: rest) := rfl
  have hclose : Literal.readPieces ('"' :: rest) = some ([], rest) := by
    rw [Literal.readPieces, if_pos rfl]
  rw [Literal.decode, Literal.readPieces_escape hescape, hclose]
  rfl

/-! ## Sequences of lexemes -/

/-- **One lexeme** is read back from its characters, if the text does not go on with a bare word
behind a bare word. -/
theorem lexemes_chars_append (l : Lexeme) {rest : List Char}
    (hend : l.isWord = true → EndsWord rest) :
    lexemes (l.chars ++ rest) = (lexemes rest).map (l :: ·) := by
  cases l with
  | openArray | closeArray | openObject | closeObject | comma | colon => exact lexemes_mark rfl _
  | null => exact lexemes_word (by simp [Lexeme.chars]) (List.all_eq_true.1 rfl) (hend rfl) rfl
  | bool b =>
    cases b with
    | true => exact lexemes_word (by simp [Lexeme.chars]) (List.all_eq_true.1 rfl) (hend rfl) rfl
    | false => exact lexemes_word (by simp [Lexeme.chars]) (List.all_eq_true.1 rfl) (hend rfl) rfl
  | number n =>
    cases n with
    | none => exact lexemes_word (by simp [Lexeme.chars]) (List.all_eq_true.1 rfl) (hend rfl) rfl
    | some n =>
      exact lexemes_word Nat.toDigits_ne_nil
        (fun c hc => isWordChar_of_isDigit (isDigit_of_mem_toDigits hc)) (hend rfl)
        (word?_toDigits n)
  | string s =>
    cases s with
    | none => exact lexemes_literal (decode_half rest)
    | some s =>
      have hdecode := Literal.decode_encode s.toList rest
      rw [String.ofList_toList] at hdecode
      have hchars : (Lexeme.string (some s)).chars ++ rest =
          '"' :: (Literal.encode s.toList ++ '"' :: rest) := by
        simp [Lexeme.chars]
      rw [hchars]
      exact lexemes_literal hdecode

/-- No bare word is followed by another. -/
def Separated (ls : List Lexeme) : Prop :=
  ls.IsChain fun l l' => l.isWord = true → l'.isWord = false

/-- Lexemes that may follow a bare word: they do not begin with one, and are separated. -/
def FollowsWord (ls : List Lexeme) : Prop := Separated ls ∧ ∀ l ∈ ls.head?, l.isWord = false

/-- What is no bare word shows where it ends, so any separated lexemes may follow it. -/
theorem Separated.mark {ls : List Lexeme} (h : Separated ls) {l : Lexeme}
    (hl : l.isWord = false) : Separated (l :: ls) :=
  List.isChain_cons.2 ⟨fun l' _ hword => absurd hword (by rw [hl]; decide), h⟩

theorem FollowsWord.cons {ls : List Lexeme} (h : FollowsWord ls) (l : Lexeme) :
    Separated (l :: ls) :=
  List.isChain_cons.2 ⟨fun l' hl' _ => h.2 l' hl', h.1⟩

theorem Separated.followsWord {ls : List Lexeme} (h : Separated ls) {l : Lexeme}
    (hl : l.isWord = false) : FollowsWord (l :: ls) := by
  refine ⟨h.mark hl, fun l' hl' => ?_⟩
  obtain rfl : l = l' := Option.some.inj hl'
  exact hl

/-- What is no bare word begins with a character that belongs to no word. -/
theorem endsWord_chars {l : Lexeme} (hl : l.isWord = false) (cs : List Char) :
    EndsWord (l.chars ++ cs) := by
  intro c hc
  cases l with
  | null | bool b | number n => cases hl
  | string s => cases s <;> obtain rfl := Option.some.inj hc <;> decide
  | _ => obtain rfl := Option.some.inj hc; decide

/-- **Lexemes.**  Separated lexemes are read back from their characters. -/
theorem lexemes_flatMap_chars {ls : List Lexeme} (h : Separated ls) :
    lexemes (ls.flatMap Lexeme.chars) = some ls := by
  induction ls with
  | nil => rw [List.flatMap_nil, lexemes]
  | cons l ls ih =>
    obtain ⟨hnext, hrest⟩ := List.isChain_cons.1 h
    have hend : l.isWord = true → EndsWord (ls.flatMap Lexeme.chars) := by
      intro hword
      cases ls with
      | nil => exact fun c hc => absurd hc (Option.not_mem_none c)
      | cons l' ls => exact endsWord_chars (hnext l' rfl hword) _
    rw [List.flatMap_cons, lexemes_chars_append l hend, ih hrest]
    rfl

/-! ## Values -/

/-- Induction on a value: what holds of an array or an object may be shown from what holds of the
values in it. -/
theorem induction {motive : Json → Prop} (null : motive null) (bool : ∀ b, motive (bool b))
    (number : ∀ n, motive (number n)) (string : ∀ s, motive (string s))
    (array : ∀ items, (∀ j ∈ items, motive j) → motive (array items))
    (object : ∀ members : List (Option String × Json),
      (∀ m ∈ members, motive m.2) → motive (object members)) (j : Json) : motive j := by
  refine Json.rec (motive_1 := motive) (motive_2 := fun items => ∀ j ∈ items, motive j)
    (motive_3 := fun members => ∀ m ∈ members, motive m.2) (motive_4 := fun m => motive m.2)
    null bool number string array object ?_ ?_ ?_ ?_ ?_ j
  · exact fun j hj => absurd hj List.not_mem_nil
  · exact fun j items hj hitems => List.forall_mem_cons.2 ⟨hj, hitems⟩
  · exact fun m hm => absurd hm List.not_mem_nil
  · exact fun m members hm hmembers => List.forall_mem_cons.2 ⟨hm, hmembers⟩
  · exact fun key j hj => hj

/-- The lexemes of a value are separated, whatever follows that may follow a bare word. -/
def Separates (j : Json) : Prop := ∀ ⦃ls⦄, FollowsWord ls → Separated (j.toLexemes ++ ls)

/-- Behind the first item of an array stands a mark, so the rest of the array may follow any
item. -/
theorem followsWord_itemLexemes {js : List Json} (hjs : ∀ j ∈ js, j.Separates)
    {ls : List Lexeme} (h : Separated ls) : FollowsWord (itemLexemes js ++ ls) := by
  induction js with
  | nil => exact h.followsWord rfl
  | cons j js ih =>
    obtain ⟨hj, hjs⟩ := List.forall_mem_cons.1 hjs
    rw [itemLexemes, List.cons_append, List.append_assoc]
    exact (hj (ih hjs)).followsWord rfl

theorem followsWord_memberLexemes {ms : List (Option String × Json)}
    (hms : ∀ m ∈ ms, m.2.Separates) {ls : List Lexeme} (h : Separated ls) :
    FollowsWord (memberLexemes ms ++ ls) := by
  induction ms with
  | nil => exact h.followsWord rfl
  | cons m ms ih =>
    obtain ⟨hm, hms⟩ := List.forall_mem_cons.1 hms
    rw [memberLexemes, List.cons_append, List.cons_append, List.cons_append, List.append_assoc]
    exact (((hm (ih hms)).mark rfl).mark rfl).followsWord rfl

theorem separates (j : Json) : j.Separates := by
  induction j using Json.induction with
  | null | bool b | number n | string s => exact fun ls h => h.cons _
  | array items ih =>
    intro ls h
    cases items with
    | nil => exact (h.1.mark rfl).mark rfl
    | cons j js =>
      obtain ⟨hj, hjs⟩ := List.forall_mem_cons.1 ih
      rw [toLexemes, List.cons_append, List.append_assoc]
      exact (hj (followsWord_itemLexemes hjs h.1)).mark rfl
  | object members ih =>
    intro ls h
    cases members with
    | nil => exact (h.1.mark rfl).mark rfl
    | cons m ms =>
      obtain ⟨hm, hms⟩ := List.forall_mem_cons.1 ih
      rw [toLexemes, List.cons_append, List.cons_append, List.cons_append, List.append_assoc]
      exact (((hm (followsWord_memberLexemes hms h.1)).mark rfl).mark rfl).mark rfl

/-- The lexemes of a value do not begin by closing an array. -/
theorem head?_toLexemes_append_ne (j : Json) (ls : List Lexeme) :
    (j.toLexemes ++ ls).head? ≠ some .closeArray := by
  cases j with
  | array items => cases items <;> simp [toLexemes]
  | object members => cases members <;> simp [toLexemes]
  | _ => simp [toLexemes]

/-- An array that is not closed at once has a first item. -/
theorem readValue_openArray {ls : List Lexeme} (h : ls.head? ≠ some .closeArray)
    (layers : List Layer) :
    readValue layers (.openArray :: ls) = readValue (.array [] :: layers) ls := by
  cases ls with
  | nil => rfl
  | cons l ls =>
    cases l with
    | closeArray => exact absurd rfl h
    | _ => rfl

/-- Reading the lexemes of a value completes the value, inside whatever is open around it and
whatever follows. -/
def ReadsBack (j : Json) : Prop :=
  ∀ layers ls, readValue layers (j.toLexemes ++ ls) = readAfter j layers ls

/-- The rest of an array is read behind the item `j`, with the items in front of `j` last
first. -/
theorem readAfter_itemLexemes {js : List Json} (hjs : ∀ k ∈ js, k.ReadsBack) (before : List Json)
    (j : Json) (layers : List Layer) (ls : List Lexeme) :
    readAfter j (.array before :: layers) (itemLexemes js ++ ls) =
      readAfter (array (before.reverse ++ j :: js)) layers ls := by
  induction js generalizing before j with
  | nil =>
    rw [← List.reverse_cons]
    rfl
  | cons k js ih =>
    obtain ⟨hk, hjs⟩ := List.forall_mem_cons.1 hjs
    rw [itemLexemes, List.cons_append, List.append_assoc]
    show readValue (.array (j :: before) :: layers) (k.toLexemes ++ (itemLexemes js ++ ls)) = _
    rw [hk, ih hjs, List.reverse_cons, List.append_assoc]
    rfl

theorem readAfter_memberLexemes {ms : List (Option String × Json)}
    (hms : ∀ m ∈ ms, m.2.ReadsBack) (before : List (Option String × Json)) (key : Option String)
    (j : Json) (layers : List Layer) (ls : List Lexeme) :
    readAfter j (.object before key :: layers) (memberLexemes ms ++ ls) =
      readAfter (object (before.reverse ++ (key, j) :: ms)) layers ls := by
  induction ms generalizing before key j with
  | nil =>
    rw [← List.reverse_cons]
    rfl
  | cons m ms ih =>
    obtain ⟨hm, hms⟩ := List.forall_mem_cons.1 hms
    rw [memberLexemes, List.cons_append, List.cons_append, List.cons_append, List.append_assoc]
    show readValue (.object ((key, j) :: before) m.1 :: layers)
      (m.2.toLexemes ++ (memberLexemes ms ++ ls)) = _
    rw [hm, ih hms, List.reverse_cons, List.append_assoc]
    rfl

/-- **Values.**  Every value is read back from its lexemes. -/
theorem readsBack (j : Json) : j.ReadsBack := by
  induction j using Json.induction with
  | null | bool b | number n | string s => exact fun layers ls => rfl
  | array items ih =>
    intro layers ls
    cases items with
    | nil => rfl
    | cons j js =>
      obtain ⟨hj, hjs⟩ := List.forall_mem_cons.1 ih
      rw [toLexemes, List.cons_append, List.append_assoc,
        readValue_openArray (head?_toLexemes_append_ne j _), hj, readAfter_itemLexemes hjs]
      rfl
  | object members ih =>
    intro layers ls
    cases members with
    | nil => rfl
    | cons m ms =>
      obtain ⟨hm, hms⟩ := List.forall_mem_cons.1 ih
      rw [toLexemes, List.cons_append, List.cons_append, List.cons_append, List.append_assoc]
      show readValue (.object [] m.1 :: layers)
        (m.2.toLexemes ++ (memberLexemes ms ++ ls)) = _
      rw [hm, readAfter_memberLexemes hms]
      rfl

/-- **Texts.**  Every value is read back from its text. -/
theorem ofText?_text (j : Json) : ofText? j.text = some j := by
  have hend : FollowsWord [] := ⟨List.isChain_nil, fun l hl => absurd hl (Option.not_mem_none l)⟩
  have hseparated := j.separates hend
  have hread := j.readsBack [] []
  rw [List.append_nil] at hseparated hread
  rw [ofText?, text, String.toList_ofList, lexemes_flatMap_chars hseparated]
  exact hread

end Json
end WireLambda
