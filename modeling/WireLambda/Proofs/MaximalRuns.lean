import Mathlib.Data.List.Induction
import Mathlib.Logic.ExistsUnique
import WireLambda.Proofs.Spans

/-!
# Raw tokens are maximal runs

Five characters separate, and a maximal run of a source is a run of other characters that
cannot be made longer.  `rawTokens` follows the source from left to right and flushes what it
has at each separator, and this file says that this finds the maximal runs, all of them, and
counts their bytes correctly.

* `standsIn_of_mem` (in `Proofs.Spans`) says that a raw token is a maximal run, and
  `exists_mem_of_isMaximal` that a maximal run is a raw token.  Every character that does not
  separate stands in a maximal run (`exists_isMaximal_around`).
* `pairwise_rawTokensFrom`: a raw token stops before the next one starts.  So no byte belongs to
  two of them (`eq_of_mem_of_mem`), and a character that does not separate stands in exactly one
  (`existsUnique_around`).
* `laidOut_layOut`: words with gaps between them, and with or without gaps at the ends, are laid
  out in the sense of `Proofs.Splitting`, and their raw tokens are the words.

The main result, `splitting_finds_the_maximal_runs`, says this of texts and of the bytes that
these take up in UTF-8.
-/

namespace WireLambda

namespace Source

/-- The five characters that separate. -/
def separators : List Char := [' ', '\t', '\n', '\x0c', '\x0d']

theorem isSeparator_eq_true_iff {c : Char} : isSeparator c = true ↔ c ∈ separators := by
  simp [isSeparator, separators, or_assoc]

theorem isSeparator_eq_false_iff {c : Char} : isSeparator c = false ↔ c ∉ separators := by
  rw [← isSeparator_eq_true_iff, Bool.not_eq_true]

/-! ## Two cuts of one text -/

theorem byteLength_pos {cs : List Char} (h : cs ≠ []) : 0 < byteLength cs := by
  obtain ⟨c, cs, rfl⟩ := List.exists_cons_of_ne_nil h
  have hpos : 0 < c.utf8Size := c.utf8Size_pos
  rw [byteLength]
  omega

/-- Of two cuts of one text, the one that comes first cuts off a part of what the other one
cuts off. -/
theorem exists_append_of_byteLength_le {before rest before' rest' : List Char}
    (h : before ++ rest = before' ++ rest') (hle : byteLength before ≤ byteLength before') :
    ∃ between, before' = before ++ between ∧ rest = between ++ rest' := by
  rcases List.append_eq_append_iff.1 h with ⟨between, hbefore, hrest⟩ | ⟨between, rfl, rfl⟩
  · exact ⟨between, hbefore, hrest⟩
  · have hnil : between = [] := by
      by_contra hne
      have hpos := byteLength_pos hne
      rw [byteLength_append] at hle
      omega
    subst hnil
    exact ⟨[], by simp, rfl⟩

/-! ## Maximal runs and raw tokens -/

/-- The raw token of a number whose text `w` starts at a byte. -/
def rawTokenAt (index start : Nat) (w : List Char) : RawToken :=
  ⟨⟨index, start, start + byteLength w⟩, String.ofList w⟩

/-- A maximal run of a text is a raw token.  If something stands before it, that ends with a
separator, and the text may be cut in front of the separator. -/
theorem exists_mem_of_isMaximal {before w rest : List Char} (h : IsMaximal before w rest)
    (index offset : Nat) :
    ∃ i, rawTokenAt i (offset + byteLength before) w ∈
      rawTokensFrom index offset (before ++ (w ++ rest)) := by
  cases before using List.reverseRecOn with
  | nil =>
    refine ⟨index, ?_⟩
    rw [List.nil_append, rawTokensFrom_word_append h.isWord h.ends]
    exact List.mem_cons_self
  | append_singleton before c =>
    have hc : isSeparator c = true := h.begins c (by simp)
    have hgap : IsGap [c] := fun d hd => by rwa [List.mem_singleton.1 hd]
    have hends : EndsWord ([c] ++ (w ++ rest)) :=
      endsWord_gap_append (List.cons_ne_nil c []) hgap _
    refine ⟨index + (rawTokensFrom index offset before).length, ?_⟩
    rw [List.append_assoc, rawTokensFrom_append hends, rawTokensFrom_gap_append hgap,
      rawTokensFrom_word_append h.isWord h.ends, byteLength_append, ← Nat.add_assoc]
    exact List.mem_append_right _ List.mem_cons_self

/-- A text is something after which a word begins, and then a part of a word. -/
theorem exists_beginsWord_append (cs : List Char) :
    ∃ before left, cs = before ++ left ∧ BeginsWord before ∧
      ∀ c ∈ left, isSeparator c = false := by
  induction cs using List.reverseRecOn with
  | nil => exact ⟨[], [], rfl, fun c hc => absurd hc (by simp), fun c hc => absurd hc (by simp)⟩
  | append_singleton cs c ih =>
    cases hc : isSeparator c with
    | true =>
      refine ⟨cs ++ [c], [], by simp, fun d hd => ?_, fun d hd => absurd hd (by simp)⟩
      rw [List.getLast?_concat] at hd
      rwa [← Option.some.inj hd]
    | false =>
      obtain ⟨before, left, rfl, hbegins, hleft⟩ := ih
      refine ⟨before, left ++ [c], List.append_assoc .., hbegins, fun d hd => ?_⟩
      rcases List.mem_append.1 hd with hd | hd
      · exact hleft d hd
      · rw [List.mem_singleton.1 hd]
        exact hc

/-- A character that does not separate stands in a maximal run. -/
theorem exists_isMaximal_around {c : Char} (hc : isSeparator c = false)
    (before rest : List Char) :
    ∃ before' left right rest', before = before' ++ left ∧ rest = right ++ rest' ∧
      IsMaximal before' (left ++ c :: right) rest' := by
  obtain ⟨before', left, hbefore, hbegins, hleft⟩ := exists_beginsWord_append before
  have hright := isWord_cons_word hc rest
  refine ⟨before', left, word rest, afterWord rest, hbefore, (word_append_afterWord rest).symm,
    ⟨by simp, fun d hd => ?_⟩, hbegins, endsWord_afterWord rest⟩
  rcases List.mem_append.1 hd with hd | hd
  · exact hleft d hd
  · exact hright.2 d hd

/-- In a text that does not begin with a word no raw token starts at once. -/
theorem lt_start_of_mem {index offset : Nat} {cs : List Char} {raw : RawToken}
    (hends : EndsWord cs) (h : raw ∈ rawTokensFrom index offset cs) :
    offset < raw.span.start := by
  obtain ⟨before, w, rest, rfl, hmax, -, hstart, -⟩ := standsIn_of_mem h
  have hpos := byteLength_pos (hmax.ne_nil hends)
  omega

/-- **Order.**  A raw token stops before those behind it start. -/
theorem pairwise_rawTokensFrom (index offset : Nat) (cs : List Char) :
    (rawTokensFrom index offset cs).Pairwise fun raw raw' => raw.span.stop < raw'.span.start := by
  induction index, offset, cs using splitting_induction with
  | nil index offset =>
    rw [rawTokensFrom_nil]
    exact List.Pairwise.nil
  | separator index offset c cs hc ih =>
    rw [rawTokensFrom_separator hc]
    exact ih
  | token index offset c cs hc ih =>
    rw [rawTokensFrom_token hc]
    exact List.pairwise_cons.2 ⟨fun raw hraw => lt_start_of_mem (endsWord_afterWord cs) hraw, ih⟩

theorem pairwise_rawTokens (source : String) :
    (rawTokens source).Pairwise fun raw raw' => raw.span.stop < raw'.span.start := by
  rw [rawTokens_eq]
  exact pairwise_rawTokensFrom 0 0 source.toList

/-! ## Bytes -/

/-- No byte belongs to two raw tokens. -/
theorem eq_of_mem_of_mem {source : String} {raw raw' : RawToken} {n : Nat}
    (h : raw ∈ rawTokens source) (h' : raw' ∈ rawTokens source)
    (hstart : raw.span.start ≤ n) (hstop : n < raw.span.stop)
    (hstart' : raw'.span.start ≤ n) (hstop' : n < raw'.span.stop) : raw = raw' := by
  have horder := List.pairwise_iff_getElem.1 (pairwise_rawTokens source)
  obtain ⟨i, hi, rfl⟩ := List.getElem_of_mem h
  obtain ⟨j, hj, rfl⟩ := List.getElem_of_mem h'
  rcases Nat.lt_trichotomy i j with hlt | rfl | hlt
  · have hfirst := horder i j hi hj hlt
    omega
  · rfl
  · have hfirst := horder j i hj hi hlt
    omega

/-- A character that does not separate lies within one raw token. -/
theorem existsUnique_around {source : String} {before rest : List Char} {c : Char}
    (hsource : source.toList = before ++ c :: rest) (hc : isSeparator c = false) :
    ∃! raw, raw ∈ rawTokens source ∧ raw.span.start ≤ byteLength before ∧
      byteLength before + c.utf8Size ≤ raw.span.stop := by
  have hpos : 0 < c.utf8Size := c.utf8Size_pos
  obtain ⟨before', left, right, rest', rfl, rfl, hmax⟩ := exists_isMaximal_around hc before rest
  obtain ⟨i, hmem⟩ := exists_mem_of_isMaximal hmax 0 0
  have hcut : before' ++ (left ++ c :: right ++ rest') = source.toList := by
    rw [hsource]
    simp
  have hstop : byteLength (before' ++ left) + c.utf8Size ≤
      byteLength before' + byteLength (left ++ c :: right) := by
    rw [byteLength_append, byteLength_append, byteLength]
    omega
  rw [hcut, Nat.zero_add, ← rawTokens_eq] at hmem
  have hstart : byteLength before' ≤ byteLength (before' ++ left) := by
    rw [byteLength_append]
    exact Nat.le_add_right ..
  refine ⟨_, ⟨hmem, hstart, hstop⟩, ?_⟩
  rintro raw ⟨hraw, hstart', hstop'⟩
  exact eq_of_mem_of_mem hraw hmem
    hstart' (Nat.lt_of_lt_of_le (Nat.lt_add_of_pos_right hpos) hstop')
    hstart (Nat.lt_of_lt_of_le (Nat.lt_add_of_pos_right hpos) hstop)

/-- A separator lies outside all raw tokens. -/
theorem outside_of_isSeparator {source : String} {before rest : List Char} {c : Char}
    (hsource : source.toList = before ++ c :: rest) (hc : isSeparator c = true)
    {raw : RawToken} (h : raw ∈ rawTokens source) :
    raw.span.stop ≤ byteLength before ∨
      byteLength before + c.utf8Size ≤ raw.span.start := by
  rw [rawTokens_eq] at h
  obtain ⟨before', w, rest', hcut, hmax, -, hstart, hstop⟩ := standsIn_of_mem h
  have hsame : before ++ c :: rest = before' ++ (w ++ rest') := by rw [← hcut, hsource]
  have hnot : c ∉ w := fun hmem => by
    rw [hmax.isWord.2 c hmem] at hc
    cases hc
  rcases Nat.le_total (byteLength before) (byteLength before') with hle | hle
  · obtain ⟨between, rfl, hrest⟩ := exists_append_of_byteLength_le hsame hle
    cases between with
    | nil =>
      obtain ⟨d, w, rfl⟩ := List.exists_cons_of_ne_nil hmax.isWord.1
      exact absurd (List.cons.inj hrest).1 fun hcd => hnot (by simp [hcd])
    | cons d between =>
      obtain rfl : c = d := (List.cons.inj hrest).1
      right
      rw [hstart, byteLength_append, byteLength]
      omega
  · obtain ⟨between, rfl, hrest⟩ := exists_append_of_byteLength_le hsame.symm hle
    rw [byteLength_append]
    by_cases hinside : byteLength between < byteLength w
    · obtain ⟨tail, rfl, htail⟩ :=
        exists_append_of_byteLength_le hrest.symm (Nat.le_of_lt hinside)
      cases tail with
      | nil => simp at hinside
      | cons d tail =>
        exact absurd (List.cons.inj htail).1 fun hcd => hnot (by simp [hcd])
    · omega

/-! ## Texts -/

/-- Whether a text stands in a source between two bytes as a maximal run. -/
def MaximalRun (source : String) (start stop : Nat) (text : String) : Prop :=
  ∃ before rest : String, source = before ++ text ++ rest ∧ start = before.utf8ByteSize ∧
    stop = (before ++ text).utf8ByteSize ∧ IsMaximal before.toList text.toList rest.toList

/-- Whether characters of a source stand between two raw tokens. -/
def Apart (source : String) (raw raw' : RawToken) : Prop :=
  ∃ before between rest : String, source = before ++ between ++ rest ∧ between ≠ "" ∧
    raw.span.stop = before.utf8ByteSize ∧ raw'.span.start = (before ++ between).utf8ByteSize

theorem maximalRun_of_mem {source : String} {raw : RawToken} (h : raw ∈ rawTokens source) :
    MaximalRun source raw.span.start raw.span.stop raw.text := by
  rw [rawTokens_eq] at h
  obtain ⟨before, w, rest, hcut, hmax, htext, hstart, hstop⟩ := standsIn_of_mem h
  refine ⟨String.ofList before, String.ofList rest, ?_, ?_, ?_, ?_⟩
  · rw [← String.toList_inj, hcut, htext]
    simp [String.toList_append]
  · rw [← byteLength_toList, String.toList_ofList, hstart, Nat.zero_add]
  · rw [← byteLength_toList, String.toList_append, htext, String.toList_ofList,
      String.toList_ofList, byteLength_append, hstop, hstart, Nat.zero_add]
  · rw [htext, String.toList_ofList, String.toList_ofList, String.toList_ofList]
    exact hmax

/-- **The raw tokens of a source are its maximal runs.** -/
theorem exists_mem_rawTokens_iff {source text : String} {start stop : Nat} :
    (∃ raw ∈ rawTokens source,
      raw.span.start = start ∧ raw.span.stop = stop ∧ raw.text = text) ↔
      MaximalRun source start stop text := by
  constructor
  · rintro ⟨raw, h, rfl, rfl, rfl⟩
    exact maximalRun_of_mem h
  · rintro ⟨before, rest, rfl, rfl, rfl, hmax⟩
    obtain ⟨i, hmem⟩ := exists_mem_of_isMaximal hmax 0 0
    refine ⟨rawTokenAt i (0 + byteLength before.toList) text.toList, ?_, ?_, ?_, ?_⟩
    · rw [rawTokens_eq, String.toList_append, String.toList_append, List.append_assoc]
      exact hmem
    · show 0 + byteLength before.toList = _
      rw [Nat.zero_add, byteLength_toList]
    · show 0 + byteLength before.toList + byteLength text.toList = _
      rw [Nat.zero_add, byteLength_toList, byteLength_toList, String.utf8ByteSize_append]
    · exact String.ofList_toList

/-- Where a maximal run starts and stops, characters of the source begin or the source ends. -/
theorem MaximalRun.isValid {source text : String} {start stop : Nat}
    (h : MaximalRun source start stop text) :
    String.Pos.Raw.IsValid source ⟨start⟩ ∧ String.Pos.Raw.IsValid source ⟨stop⟩ := by
  obtain ⟨before, rest, rfl, rfl, rfl, -⟩ := h
  constructor
  · exact String.Pos.Raw.isValid_iff_exists_append.2
      ⟨before, text ++ rest, String.append_assoc .., rfl⟩
  · exact String.Pos.Raw.isValid_iff_exists_append.2 ⟨before ++ text, rest, rfl, rfl⟩

theorem MaximalRun.start_lt_stop {source text : String} {start stop : Nat}
    (h : MaximalRun source start stop text) : start < stop := by
  obtain ⟨before, rest, -, rfl, rfl, hmax⟩ := h
  have hpos := byteLength_pos hmax.isWord.1
  rw [byteLength_toList] at hpos
  rw [String.utf8ByteSize_append]
  omega

theorem apart_of_lt {source : String} {raw raw' : RawToken} (h : raw ∈ rawTokens source)
    (h' : raw' ∈ rawTokens source) (hlt : raw.span.stop < raw'.span.start) :
    Apart source raw raw' := by
  obtain ⟨before, rest, hcut, -, hstop, -⟩ := maximalRun_of_mem h
  obtain ⟨before', rest', hcut', hstart', -, -⟩ := maximalRun_of_mem h'
  have hsame : (before ++ raw.text).toList ++ rest.toList =
      before'.toList ++ (raw'.text ++ rest').toList := by
    rw [← String.toList_append, ← String.toList_append, ← String.append_assoc, ← hcut, ← hcut']
  have hle : byteLength (before ++ raw.text).toList ≤ byteLength before'.toList := by
    rw [byteLength_toList, byteLength_toList]
    omega
  obtain ⟨between, hbetween, -⟩ := exists_append_of_byteLength_le hsame hle
  have hbefore' : before' = before ++ raw.text ++ String.ofList between := by
    rw [← String.toList_inj, hbetween]
    simp [String.toList_append]
  refine ⟨before ++ raw.text, String.ofList between, raw'.text ++ rest', ?_, ?_, hstop, ?_⟩
  · rw [← hbefore', ← String.append_assoc, ← hcut']
  · rintro hnil
    rw [hnil, String.append_empty] at hbefore'
    rw [hstop, hstart', hbefore'] at hlt
    exact Nat.lt_irrefl _ hlt
  · rw [hstart', ← hbefore']

/-! ## Words with gaps between them -/

/-- Words one after the other, each with a gap behind it. -/
def layOut : List (String × String) → String
  | [] => ""
  | (w, gap) :: parts => w ++ gap ++ layOut parts

/-- Words with gaps behind them of which only the last may be empty. -/
structure WellSpaced (parts : List (String × String)) : Prop where
  words : ∀ p ∈ parts, IsWord p.1.toList
  gaps : ∀ p ∈ parts, IsGap p.2.toList
  apart : ∀ p ∈ parts.dropLast, p.2 ≠ ""

theorem WellSpaced.tail {p : String × String} {parts : List (String × String)}
    (h : WellSpaced (p :: parts)) : WellSpaced parts where
  words q hq := h.words q (List.mem_cons_of_mem p hq)
  gaps q hq := h.gaps q (List.mem_cons_of_mem p hq)
  apart q hq := by
    have hne : parts ≠ [] := by
      rintro rfl
      exact absurd hq (by simp)
    refine h.apart q ?_
    rw [List.dropLast_cons_of_ne_nil hne]
    exact List.mem_cons_of_mem p hq

/-- Behind a word stands nothing, or a gap that is not empty. -/
theorem WellSpaced.endsWord {w gap : String} {parts : List (String × String)}
    (h : WellSpaced ((w, gap) :: parts)) : EndsWord (gap.toList ++ (layOut parts).toList) := by
  have hgap : IsGap gap.toList := h.gaps _ List.mem_cons_self
  by_cases hnil : gap.toList = []
  · cases parts with
    | nil =>
      intro c hc
      exact absurd hc (by simp [hnil, layOut])
    | cons p parts =>
      exact absurd (String.toList_eq_nil_iff.1 hnil) (h.apart (w, gap) (by simp))
  · exact endsWord_gap_append hnil hgap _

theorem laidOut_layOut {lead : String} {parts : List (String × String)}
    (hlead : IsGap lead.toList) (h : WellSpaced parts) :
    LaidOut (parts.map (·.1.toList)) (lead ++ layOut parts).toList := by
  induction parts generalizing lead with
  | nil =>
    rw [layOut, String.append_empty]
    exact .gap hlead
  | cons p parts ih =>
    obtain ⟨w, gap⟩ := p
    have hrest := ih (h.gaps _ List.mem_cons_self) h.tail
    rw [String.toList_append] at hrest
    rw [layOut, String.toList_append, String.toList_append, String.toList_append,
      List.append_assoc]
    exact .word hlead (h.words _ List.mem_cons_self) h.endsWord hrest

/-! ## The main result -/

/-- **Splitting finds the maximal runs.**  Take the raw tokens of a source.

* They are numbered from zero on.
* Each of them takes up at least one byte, starts and stops where characters of the source begin
  or the source ends, has the text that its span covers, and this has no separator in it.
* They are in the order of the source, and between any two there are characters.
* A separator lies outside all of them, and any other character within one of them and no other.
* They are the maximal runs: a word stands in the source between two bytes, and neither what comes
  before it nor what comes after it goes on with it, exactly if there is a raw token there.

Conversely let words be joined by gaps that are not empty, with any gap before the first and behind
the last of them.  The raw tokens of what comes out are the words. -/
theorem splitting_finds_the_maximal_runs :
    (∀ source : String,
      (rawTokens source).map (·.span.index) = List.range (rawTokens source).length ∧
      (∀ raw ∈ rawTokens source,
        raw.span.start < raw.span.stop ∧
        String.Pos.Raw.IsValid source ⟨raw.span.start⟩ ∧
        String.Pos.Raw.IsValid source ⟨raw.span.stop⟩ ∧
        text? source raw.span = some raw.text ∧ ∀ c ∈ separators, c ∉ raw.text.toList) ∧
      ((rawTokens source).Pairwise fun raw raw' =>
        raw.span.stop < raw'.span.start ∧ Apart source raw raw') ∧
      (∀ (before rest : String) (c : Char), source = before ++ String.singleton c ++ rest →
        (c ∈ separators → ∀ raw ∈ rawTokens source,
          raw.span.stop ≤ before.utf8ByteSize ∨
            before.utf8ByteSize + c.utf8Size ≤ raw.span.start) ∧
        (c ∉ separators → ∃! raw, raw ∈ rawTokens source ∧
          raw.span.start ≤ before.utf8ByteSize ∧
            before.utf8ByteSize + c.utf8Size ≤ raw.span.stop)) ∧
      ∀ start stop text, (∃ raw ∈ rawTokens source,
        raw.span.start = start ∧ raw.span.stop = stop ∧ raw.text = text) ↔
          MaximalRun source start stop text) ∧
    ∀ (lead : String) (parts : List (String × String)), IsGap lead.toList → WellSpaced parts →
      (rawTokens (lead ++ layOut parts)).map (·.text) = parts.map (·.1) := by
  refine ⟨fun source => ⟨?_, fun raw hraw => ?_, ?_, fun before rest c hsource => ?_,
    fun start stop text => exists_mem_rawTokens_iff⟩, fun lead parts hlead hparts => ?_⟩
  · refine List.ext_getElem (by simp) fun i hi hi' => ?_
    rw [List.length_map] at hi
    rw [List.getElem_map, List.getElem_range]
    exact index_of_getElem? (List.getElem?_eq_getElem hi)
  · obtain ⟨before, rest, -, -, -, hmax⟩ := maximalRun_of_mem hraw
    have hrun := maximalRun_of_mem hraw
    refine ⟨hrun.start_lt_stop, hrun.isValid.1, hrun.isValid.2, text?_of_mem_rawTokens hraw,
      fun c hc hmem => ?_⟩
    exact isSeparator_eq_false_iff.1 (hmax.isWord.2 c hmem) hc
  · refine List.Pairwise.imp_of_mem ?_ (pairwise_rawTokens source)
    intro raw raw' hraw hraw' hlt
    exact ⟨hlt, apart_of_lt hraw hraw' hlt⟩
  · have hlist : source.toList = before.toList ++ c :: rest.toList := by
      rw [hsource]
      simp [String.toList_append]
    rw [← byteLength_toList]
    exact ⟨fun hc raw hraw => outside_of_isSeparator hlist (isSeparator_eq_true_iff.2 hc) hraw,
      fun hc => existsUnique_around hlist (isSeparator_eq_false_iff.2 hc)⟩
  · have htexts := map_text_rawTokensFrom (laidOut_layOut hlead hparts) 0 0
    rw [List.map_map] at htexts
    rw [rawTokens_eq, htexts]
    exact List.map_congr_left fun p _ => String.ofList_toList

/-- Two words, in the first of which stand a letter of two bytes and a space that does not
separate. -/
def spacedWords : List (String × String) := [("Ié\u00a0!", " \n"), ("日", "\x0c")]

/-- The words are what is found, the space of two bytes lies within one raw token, and the line
feed that separates outside of both. -/
theorem splitting_finds_the_maximal_runs_multibyte :
    (rawTokens ("\t" ++ layOut spacedWords)).map (·.text) = ["Ié\u00a0!", "日"] ∧
      MaximalRun "\tIé\u00a0! \n日\x0c" 1 7 "Ié\u00a0!" ∧
      (∃! raw, raw ∈ rawTokens "\tIé\u00a0! \n日\x0c" ∧
        raw.span.start ≤ 4 ∧ 6 ≤ raw.span.stop) ∧
      ∀ raw ∈ rawTokens "\tIé\u00a0! \n日\x0c", raw.span.stop ≤ 8 ∨ 9 ≤ raw.span.start := by
  obtain ⟨hsource, hwords⟩ := splitting_finds_the_maximal_runs
  obtain ⟨-, -, -, hcharacter, hrun⟩ := hsource "\tIé\u00a0! \n日\x0c"
  have hspaced : WellSpaced spacedWords :=
    ⟨by decide +kernel, by decide +kernel, by decide +kernel⟩
  have hmem : (⟨⟨0, 1, 7⟩, "Ié\u00a0!"⟩ : RawToken) ∈ rawTokens "\tIé\u00a0! \n日\x0c" := by
    decide +kernel
  refine ⟨hwords "\t" spacedWords (by decide +kernel) hspaced,
    (hrun 1 7 _).1 ⟨_, hmem, rfl, rfl, rfl⟩, ?_, ?_⟩
  · exact (hcharacter "\tIé" "! \n日\x0c" '\u00a0' (by decide +kernel)).2 (by decide)
  · exact (hcharacter "\tIé\u00a0! " "日\x0c" '\n' (by decide +kernel)).1 (by decide)

end Source

end WireLambda
