import WireLambda.Proofs.Splitting

/-!
# Where raw tokens stand

A raw token says where it was found: by its number, and by the bytes it takes up.  This file
says that it is right about both, and how the places change when a text goes on.

* `index_of_getElem?`: raw tokens are numbered in the order of the text.
* `standsIn_of_mem`: a text is what comes before a raw token, then the raw token, then the
  rest, and the bytes are counted accordingly.  The raw token is a word, and neither what comes
  before nor the rest goes on with it (`IsMaximal`).  So cutting the span of a raw token out of
  its source gives the text of the raw token (`text?_of_mem_rawTokens`).
* `index_lt_of_mem` and `start_le_stop_of_mem`: numbers and bytes do not go beyond the length of
  the text in bytes.
* `rawTokensFrom_append`: what follows a text, and does not go on with its last word, adds its
  own raw tokens behind those of the text, which stay as they are.
-/

namespace WireLambda
namespace Source

/-- Induction along the splitting of a text: a separator is skipped, and any other character
begins a word that is taken off as a whole. -/
theorem splitting_induction {motive : Nat → Nat → List Char → Prop}
    (nil : ∀ index offset, motive index offset [])
    (separator : ∀ index offset c cs, isSeparator c = true →
      motive index (offset + c.utf8Size) cs → motive index offset (c :: cs))
    (token : ∀ index offset c cs, isSeparator c = false →
      motive (index + 1) (offset + byteLength (c :: word cs)) (afterWord cs) →
      motive index offset (c :: cs))
    (index offset : Nat) (cs : List Char) : motive index offset cs :=
  rawTokensFrom.induct motive nil separator
    (fun index offset c cs hc ih => token index offset c cs (Bool.eq_false_iff.2 hc) ih)
    index offset cs

/-! ## Numbers -/

/-- The raw tokens of a text are numbered in order. -/
theorem index_of_getElem?_from {index offset : Nat} {cs : List Char} {i : Nat} {raw : RawToken}
    (h : (rawTokensFrom index offset cs)[i]? = some raw) : raw.span.index = index + i := by
  induction index, offset, cs using splitting_induction generalizing i with
  | nil index offset => exact absurd h (by simp)
  | separator index offset c cs hc ih =>
    rw [rawTokensFrom_separator hc] at h
    exact ih h
  | token index offset c cs hc ih =>
    rw [rawTokensFrom_token hc] at h
    cases i with
    | zero =>
      obtain rfl := Option.some.inj h
      rfl
    | succ i =>
      have hi : raw.span.index = index + 1 + i := ih h
      omega

/-- The raw tokens of a source are numbered in order, from zero on. -/
theorem index_of_getElem? {source : String} {i : Nat} {raw : RawToken}
    (h : (rawTokens source)[i]? = some raw) : raw.span.index = i := by
  rw [rawTokens_eq] at h
  rw [index_of_getElem?_from h, Nat.zero_add]

/-! ## Bytes -/

/-- A text after which a word begins: it is empty or ends with a separator. -/
def BeginsWord (cs : List Char) : Prop := ∀ c ∈ cs.getLast?, isSeparator c = true

/-- A word between two texts neither of which goes on with it. -/
structure IsMaximal (before w rest : List Char) : Prop where
  isWord : IsWord w
  begins : BeginsWord before
  ends : EndsWord rest

/-- Whether a raw token stands in a text that begins at byte `offset`: what comes before it ends
where it starts, it ends where the rest begins, and neither goes on with it. -/
def StandsIn (offset : Nat) (cs : List Char) (raw : RawToken) : Prop :=
  ∃ before w rest, cs = before ++ (w ++ rest) ∧ IsMaximal before w rest ∧
    raw.text = String.ofList w ∧ raw.span.start = offset + byteLength before ∧
    raw.span.stop = raw.span.start + byteLength w

theorem byteLength_append (cs cs' : List Char) :
    byteLength (cs ++ cs') = byteLength cs + byteLength cs' := by
  induction cs with
  | nil => exact (Nat.zero_add _).symm
  | cons c cs ih => rw [List.cons_append, byteLength, byteLength, ih, Nat.add_assoc]

theorem endsWord_afterWord (cs : List Char) : EndsWord (afterWord cs) := by
  induction cs with
  | nil => exact fun c hc => absurd hc (by simp [afterWord])
  | cons c cs ih =>
    by_cases hc : isSeparator c = true
    · intro d hd
      rw [afterWord, List.dropWhile_cons_of_neg (by simp [hc])] at hd
      rwa [← Option.some.inj hd]
    · rwa [afterWord, List.dropWhile_cons_of_pos (by simpa using hc)]

theorem isWord_cons_word {c : Char} (h : isSeparator c = false) (cs : List Char) :
    IsWord (c :: word cs) := by
  refine ⟨List.cons_ne_nil _ _, fun d hd => ?_⟩
  rcases List.mem_cons.1 hd with rfl | hd
  · exact h
  · simpa using List.all_eq_true.1 List.all_takeWhile d hd

/-- A word that stands in a text which does not go on with one stands behind something. -/
theorem IsMaximal.ne_nil {before w rest : List Char} (h : IsMaximal before w rest)
    (hends : EndsWord (before ++ (w ++ rest))) : before ≠ [] := by
  rintro rfl
  obtain ⟨c, w, rfl⟩ := List.exists_cons_of_ne_nil h.isWord.1
  have hseparator : isSeparator c = true := hends c rfl
  rw [h.isWord.2 c List.mem_cons_self] at hseparator
  cases hseparator

/-- What stands in the rest of a text stands in the text, if the text is not cut within a word. -/
theorem StandsIn.append_left {offset : Nat} {cs : List Char} {raw : RawToken}
    {before : List Char} (hcut : BeginsWord before ∨ EndsWord cs)
    (h : StandsIn (offset + byteLength before) cs raw) : StandsIn offset (before ++ cs) raw := by
  obtain ⟨between, w, rest, rfl, hmax, htext, hstart, hstop⟩ := h
  have hbegins : BeginsWord (before ++ between) := by
    cases between with
    | nil =>
      rw [List.append_nil]
      exact hcut.resolve_right fun hends => hmax.ne_nil hends rfl
    | cons c between =>
      intro d hd
      rw [List.getLast?_append, List.getLast?_cons, Option.some_or] at hd
      exact hmax.begins d (by rw [List.getLast?_cons]; exact hd)
  refine ⟨before ++ between, w, rest, (List.append_assoc ..).symm,
    ⟨hmax.isWord, hbegins, hmax.ends⟩, htext, ?_, hstop⟩
  rw [byteLength_append, hstart, Nat.add_assoc]

/-- The raw tokens of a text stand in it. -/
theorem standsIn_of_mem {index offset : Nat} {cs : List Char} {raw : RawToken}
    (h : raw ∈ rawTokensFrom index offset cs) : StandsIn offset cs raw := by
  induction index, offset, cs using splitting_induction with
  | nil index offset => exact absurd h (by simp)
  | separator index offset c cs hc ih =>
    rw [rawTokensFrom_separator hc] at h
    have hcut : BeginsWord [c] := fun d hd => by rwa [← Option.some.inj hd]
    exact StandsIn.append_left (.inl hcut) (ih h)
  | token index offset c cs hc ih =>
    have hsplit : c :: cs = (c :: word cs) ++ afterWord cs := by
      rw [List.cons_append, word_append_afterWord]
    rw [rawTokensFrom_token hc] at h
    rw [hsplit]
    rcases List.mem_cons.1 h with rfl | h
    · have hbegins : BeginsWord [] := fun d hd => absurd hd (by simp)
      exact ⟨[], c :: word cs, afterWord cs, rfl,
        ⟨isWord_cons_word hc cs, hbegins, endsWord_afterWord cs⟩, rfl, rfl, rfl⟩
    · exact StandsIn.append_left (.inr (endsWord_afterWord cs)) (ih h)

/-- **The text of a span.**  Cutting the span of a raw token out of its source gives the text
of the raw token. -/
theorem text?_of_mem_rawTokens {source : String} {raw : RawToken}
    (h : raw ∈ rawTokens source) : text? source raw.span = some raw.text := by
  rw [rawTokens_eq] at h
  obtain ⟨before, w, rest, hsource, -, htext, hstart, hstop⟩ := standsIn_of_mem h
  have horder : ¬ raw.span.stop < raw.span.start := by omega
  have hbefore : cutAt raw.span.start source.toList = some (before, w ++ rest) := by
    rw [hstart, Nat.zero_add, hsource]
    exact cutAt_byteLength_append before (w ++ rest)
  have hcovered : cutAt (raw.span.stop - raw.span.start) (w ++ rest) = some (w, rest) := by
    rw [hstop, Nat.add_sub_cancel_left]
    exact cutAt_byteLength_append w rest
  rw [text?, if_neg horder, hbefore]
  show (cutAt (raw.span.stop - raw.span.start) (w ++ rest)).bind _ = some raw.text
  rw [hcovered, htext]
  rfl

/-! ## How far places go -/

/-- The bytes of a text are those that it takes up in memory. -/
theorem byteLength_toList (s : String) : byteLength s.toList = s.utf8ByteSize := by
  have hlist : ∀ cs, byteLength cs = (String.ofList cs).utf8ByteSize := by
    intro cs
    induction cs with
    | nil => rfl
    | cons c cs ih =>
      rw [byteLength, ih, String.ofList_cons, String.utf8ByteSize_append,
        String.utf8ByteSize_singleton]
  rw [hlist, String.ofList_toList]

/-- A text has no more raw tokens than bytes. -/
theorem index_lt_of_mem {index offset : Nat} {cs : List Char} {raw : RawToken}
    (h : raw ∈ rawTokensFrom index offset cs) : raw.span.index < index + byteLength cs := by
  induction index, offset, cs using splitting_induction with
  | nil index offset => exact absurd h (by simp)
  | separator index offset c cs hc ih =>
    rw [rawTokensFrom_separator hc] at h
    have hrest := ih h
    rw [byteLength]
    omega
  | token index offset c cs hc ih =>
    have hpos : 0 < c.utf8Size := c.utf8Size_pos
    have hbytes : byteLength cs = byteLength (word cs) + byteLength (afterWord cs) := by
      rw [← byteLength_append, word_append_afterWord]
    rw [rawTokensFrom_token hc] at h
    rw [byteLength]
    rcases List.mem_cons.1 h with rfl | h
    · show index < _
      omega
    · have hrest := ih h
      omega

/-- A raw token stops before the text does, and does not stop before it starts. -/
theorem start_le_stop_of_mem {index offset : Nat} {cs : List Char} {raw : RawToken}
    (h : raw ∈ rawTokensFrom index offset cs) :
    raw.span.start ≤ raw.span.stop ∧ raw.span.stop ≤ offset + byteLength cs := by
  obtain ⟨before, w, rest, rfl, -, -, hstart, hstop⟩ := standsIn_of_mem h
  rw [byteLength_append, byteLength_append]
  omega

/-! ## A text that goes on -/

theorem word_append_of_endsWord {rest : List Char} (h : EndsWord rest) (cs : List Char) :
    word (cs ++ rest) = word cs ∧ afterWord (cs ++ rest) = afterWord cs ++ rest := by
  induction cs with
  | nil =>
    have hword : word ([] ++ rest) = [] := word_append (fun c hc => absurd hc (by simp)) h
    have hrest : afterWord ([] ++ rest) = rest :=
      afterWord_append (fun c hc => absurd hc (by simp)) h
    exact ⟨hword, hrest⟩
  | cons c cs ih =>
    by_cases hc : isSeparator c = true
    · simp [word, afterWord, hc]
    · simp only [word, afterWord] at ih ⊢
      simp [hc, ih]

/-- **Going on.**  A text that is followed by another one, which does not go on with its last
word, keeps its raw tokens, and those of the other one follow. -/
theorem rawTokensFrom_append {rest : List Char} (h : EndsWord rest) (index offset : Nat)
    (cs : List Char) :
    rawTokensFrom index offset (cs ++ rest) = rawTokensFrom index offset cs ++
      rawTokensFrom (index + (rawTokensFrom index offset cs).length)
        (offset + byteLength cs) rest := by
  induction index, offset, cs using splitting_induction with
  | nil index offset => rw [rawTokensFrom_nil]; rfl
  | separator index offset c cs hc ih =>
    rw [List.cons_append, rawTokensFrom_separator hc, rawTokensFrom_separator hc, ih,
      byteLength, Nat.add_assoc]
  | token index offset c cs hc ih =>
    obtain ⟨hword, hafter⟩ := word_append_of_endsWord h cs
    have hbytes : byteLength (c :: cs) = byteLength (c :: word cs) + byteLength (afterWord cs) := by
      rw [← byteLength_append, List.cons_append, word_append_afterWord]
    rw [List.cons_append, rawTokensFrom_token hc, rawTokensFrom_token hc, hword, hafter, ih,
      List.cons_append, List.length_cons, hbytes, Nat.add_assoc, Nat.add_assoc offset,
      Nat.add_comm 1]

/-- The texts of the raw tokens of a text do not depend on where it begins. -/
theorem map_text_rawTokensFrom_eq (index offset index' offset' : Nat) (cs : List Char) :
    (rawTokensFrom index offset cs).map (·.text) =
      (rawTokensFrom index' offset' cs).map (·.text) := by
  induction index, offset, cs using splitting_induction generalizing index' offset' with
  | nil index offset => rw [rawTokensFrom_nil, rawTokensFrom_nil]
  | separator index offset c cs hc ih =>
    rw [rawTokensFrom_separator hc, rawTokensFrom_separator hc]
    exact ih _ _
  | token index offset c cs hc ih =>
    rw [rawTokensFrom_token hc, rawTokensFrom_token hc, List.map_cons, List.map_cons,
      ih (index' + 1)]

/-- **Texts one after the other.**  With a gap between two texts, the words of both follow each
other. -/
theorem map_text_rawTokens_append {source gap rest : String} (hne : gap ≠ "")
    (hgap : IsGap gap.toList) :
    (rawTokens (source ++ gap ++ rest)).map (·.text) =
      (rawTokens source).map (·.text) ++ (rawTokens rest).map (·.text) := by
  have hends : EndsWord (gap.toList ++ rest.toList) :=
    endsWord_gap_append (mt String.toList_eq_nil_iff.1 hne) hgap _
  rw [rawTokens_eq, rawTokens_eq, rawTokens_eq, String.toList_append, String.toList_append,
    List.append_assoc, rawTokensFrom_append hends, List.map_append,
    rawTokensFrom_gap_append hgap]
  exact congrArg _ (map_text_rawTokensFrom_eq ..)

end Source
end WireLambda
