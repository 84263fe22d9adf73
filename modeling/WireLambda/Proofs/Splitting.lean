import WireLambda.Source

/-!
# Texts laid out as words

`Source.rawTokens` cuts a text into its raw tokens.  This file says from which texts it
gets a given list of words: those that lay the words out, with a separator between any two
of them.

`LaidOut` is that relation.  A text lays out no words if it is a gap, and it lays out a
word and others if it is a gap, then the word, then a text that lays out the others and
does not go on with the word.  Which separators stand in a gap, and how many, is free.

`map_text_rawTokensFrom` is the law: the raw tokens of such a text are the words, whatever
the numbering and the offset.  Joining words by single spaces is one way to lay them out
(`laidOut_intercalate`).
-/

namespace WireLambda
namespace Source

/-- A run of separators. -/
def IsGap (cs : List Char) : Prop := ∀ c ∈ cs, isSeparator c = true

instance (cs : List Char) : Decidable (IsGap cs) :=
  List.decidableBAll (isSeparator · = true) cs

/-- A run of characters with no separator, and not empty. -/
def IsWord (cs : List Char) : Prop := cs ≠ [] ∧ ∀ c ∈ cs, isSeparator c = false

instance (cs : List Char) : Decidable (IsWord cs) :=
  @instDecidableAnd (cs ≠ []) _ _ (List.decidableBAll (isSeparator · = false) cs)

/-- A text that does not go on with a word: it is empty or begins with a separator. -/
def EndsWord (cs : List Char) : Prop := ∀ c ∈ cs.head?, isSeparator c = true

/-- The texts that consist of the given words with gaps around them. -/
inductive LaidOut : List (List Char) → List Char → Prop where
  | gap {gap} (hgap : IsGap gap) : LaidOut [] gap
  | word {gap w rest ws} (hgap : IsGap gap) (hw : IsWord w) (hend : EndsWord rest)
      (hrest : LaidOut ws rest) : LaidOut (w :: ws) (gap ++ (w ++ rest))

/-! ## Splitting a text that is laid out -/

/-- A gap before a text moves the tokens by the bytes of the gap. -/
theorem rawTokensFrom_gap_append {gap : List Char} (hgap : IsGap gap) (index offset : Nat)
    (cs : List Char) :
    rawTokensFrom index offset (gap ++ cs) =
      rawTokensFrom index (offset + byteLength gap) cs := by
  induction gap generalizing offset with
  | nil => rfl
  | cons c gap ih =>
    have hc : isSeparator c = true := hgap c List.mem_cons_self
    have htail : IsGap gap := fun d hd => hgap d (List.mem_cons_of_mem c hd)
    rw [List.cons_append, rawTokensFrom_separator hc, ih htail, byteLength, Nat.add_assoc]

theorem word_append {w rest : List Char} (hw : ∀ c ∈ w, isSeparator c = false)
    (hend : EndsWord rest) : word (w ++ rest) = w := by
  have hstop : word rest = [] := by
    cases rest with
    | nil => rfl
    | cons c rest =>
      have hc : isSeparator c = true := hend c rfl
      simp [word, hc]
  have hall : ∀ c ∈ w, (!isSeparator c) = true := fun c hc => by rw [hw c hc]; rfl
  rw [word, List.takeWhile_append_of_pos hall]
  show w ++ word rest = w
  rw [hstop, List.append_nil]

theorem afterWord_append {w rest : List Char} (hw : ∀ c ∈ w, isSeparator c = false)
    (hend : EndsWord rest) : afterWord (w ++ rest) = rest := by
  have hsplit := word_append_afterWord (w ++ rest)
  rw [word_append hw hend] at hsplit
  exact List.append_cancel_left hsplit

/-- A word before a text that does not go on with it is a token of its own. -/
theorem rawTokensFrom_word_append {w rest : List Char} (hw : IsWord w)
    (hend : EndsWord rest) (index offset : Nat) :
    rawTokensFrom index offset (w ++ rest) =
      ⟨⟨index, offset, offset + byteLength w⟩, String.ofList w⟩ ::
        rawTokensFrom (index + 1) (offset + byteLength w) rest := by
  cases w with
  | nil => exact absurd rfl hw.1
  | cons c w =>
    have hc : isSeparator c = false := hw.2 c List.mem_cons_self
    have htail : ∀ d ∈ w, isSeparator d = false :=
      fun d hd => hw.2 d (List.mem_cons_of_mem c hd)
    rw [List.cons_append, rawTokensFrom_token hc, word_append htail hend,
      afterWord_append htail hend]

/-- **Splitting undoes laying out.**  The raw tokens of a text that lays out some words are
these words. -/
theorem map_text_rawTokensFrom {ws : List (List Char)} {cs : List Char}
    (h : LaidOut ws cs) (index offset : Nat) :
    (rawTokensFrom index offset cs).map (·.text) = ws.map String.ofList := by
  induction h generalizing index offset with
  | @gap gap hgap =>
    have hnil := rawTokensFrom_gap_append hgap index offset []
    rw [List.append_nil, rawTokensFrom_nil] at hnil
    rw [hnil]
    rfl
  | word hgap hw hend hrest ih =>
    rw [rawTokensFrom_gap_append hgap, rawTokensFrom_word_append hw hend, List.map_cons,
      List.map_cons, ih]

/-- A gap that is not empty does not go on with a word, whatever follows it. -/
theorem endsWord_gap_append {gap : List Char} (hne : gap ≠ []) (hgap : IsGap gap)
    (cs : List Char) : EndsWord (gap ++ cs) := by
  cases gap with
  | nil => exact absurd rfl hne
  | cons c gap =>
    intro d hd
    obtain rfl : c = d := Option.some.inj hd
    exact hgap c List.mem_cons_self

/-! ## Words joined by spaces -/

theorem isGap_nil : IsGap [] := by
  intro c hc
  exact absurd hc List.not_mem_nil

theorem isGap_append {gap gap' : List Char} (h : IsGap gap) (h' : IsGap gap') :
    IsGap (gap ++ gap') := by
  intro c hc
  rcases List.mem_append.1 hc with hc | hc
  · exact h c hc
  · exact h' c hc

/-- A gap before a text that lays words out becomes part of its first gap. -/
theorem LaidOut.gap_append {gap : List Char} {ws : List (List Char)} {cs : List Char}
    (hgap : IsGap gap) (h : LaidOut ws cs) : LaidOut ws (gap ++ cs) := by
  cases h with
  | gap hgap' => exact .gap (isGap_append hgap hgap')
  | word hgap' hw hend hrest =>
    rw [← List.append_assoc]
    exact .word (isGap_append hgap hgap') hw hend hrest

/-- A word may be put before a text that does not go on with it. -/
theorem LaidOut.word_append {w : List Char} {ws : List (List Char)} {cs : List Char}
    (hw : IsWord w) (hend : EndsWord cs) (h : LaidOut ws cs) : LaidOut (w :: ws) (w ++ cs) :=
  .word isGap_nil hw hend h

/-- Words joined by single spaces are laid out. -/
theorem laidOut_intercalate {ws : List (List Char)} (h : ∀ w ∈ ws, IsWord w) :
    LaidOut ws ([' '].intercalate ws) := by
  induction ws with
  | nil => exact .gap isGap_nil
  | cons w ws ih =>
    have hw : IsWord w := h w List.mem_cons_self
    have hws : LaidOut ws ([' '].intercalate ws) :=
      ih fun v hv => h v (List.mem_cons_of_mem w hv)
    cases ws with
    | nil =>
      have hend : EndsWord [] := fun c hc => absurd hc (by simp)
      have hout := LaidOut.word_append hw hend hws
      rw [List.append_nil] at hout
      rw [List.intercalate_singleton]
      exact hout
    | cons v ws =>
      have hspace : IsGap [' '] := fun c hc => by
        rw [List.mem_singleton.1 hc]
        rfl
      have hend : EndsWord ([' '] ++ [' '].intercalate (v :: ws)) :=
        endsWord_gap_append (List.cons_ne_nil _ _) hspace _
      rw [List.intercalate_cons_cons, List.append_assoc]
      exact .word_append hw hend (hws.gap_append hspace)

end Source
end WireLambda
