import WireLambda.Proofs.Reporting
import WireLambda.Proofs.Spans

/-!
# Clean and unclean sources

A source is clean if each of its raw tokens has a meaning (`Source.Decodes`).  Lexing says so
itself: it has errors exactly if the source is not clean (`Lexed.hasErrors_ofSource_iff`), wherever
the bad token stands, since the count of errors never goes down and lexing stops early only when
there are errors already.

From a clean source lexing reads one token for each raw token, in the place of the raw token
(`Lexed.exists_tokens_of_decodes`).  From a source that is not clean it reports at least one
error, and the first one is always kept: `Diagnostics.Capped` says how many are.
-/

namespace WireLambda

/-! ## How many reports are kept -/

namespace Diagnostics

/-- Whether as many reports are kept as there can be. -/
def Capped (d : Diagnostics) : Prop := d.stored.length = min d.total maxStored

theorem capped_empty : empty.Capped := rfl

theorem Capped.push {d : Diagnostics} (h : d.Capped) (r : Report) : (d.push r).Capped := by
  have hd : d.stored.length = min d.total maxStored := h
  rw [Capped, stored_push, total_push]
  split
  · rw [List.length_append, List.length_singleton]
    omega
  · omega

theorem capped_single (r : Report) : (single r).Capped := capped_empty.push r

/-- Of any errors at all the first one is kept. -/
theorem Capped.exists_first? {d : Diagnostics} (h : d.Capped) (herrors : d.hasErrors = true) :
    ∃ r ∈ d.stored, d.first? = some r := by
  have htotal : 0 < d.total := of_decide_eq_true herrors
  have hlength : d.stored.length = min d.total maxStored := h
  have hroom : 0 < maxStored := by decide
  have hpos : 0 < d.stored.length := by omega
  have hne : d.stored ≠ [] := List.ne_nil_of_length_pos hpos
  exact ⟨d.stored.head hne, List.head_mem hne, List.head?_eq_some_head hne⟩

end Diagnostics

/-! ## Counting errors -/

namespace Lexed

variable {program : String} {d : Diagnostics} {raws : List RawToken}

theorem capped_ofRawTokens (h : d.Capped) : (ofRawTokens program d raws).diagnostics.Capped := by
  fun_induction ofRawTokens program d raws with
  | case1 d => exact h
  | case2 d raw raws hfull => exact h
  | case3 d raw raws hroom token hread rest ih => exact ih h
  | case4 d raw raws hroom e hread ih => exact ih (h.push _)

/-- The count of errors never goes down. -/
theorem total_le_ofRawTokens : d.total ≤ (ofRawTokens program d raws).diagnostics.total := by
  fun_induction ofRawTokens program d raws with
  | case1 d => exact Nat.le_refl _
  | case2 d raw raws hfull => exact Nat.le_refl _
  | case3 d raw raws hroom token hread rest ih => exact ih
  | case4 d raw raws hroom e hread ih => exact Nat.le_of_succ_le ih

/-- A raw token without a meaning makes the count go up, wherever it stands, unless lexing was
over before. -/
theorem total_lt_ofRawTokens (hroom : d.total < Diagnostics.maxStored) {raw : RawToken}
    (hraw : raw ∈ raws) {e : DecodeError} (he : Token.ofWire raw.text = .error e) :
    d.total < (ofRawTokens program d raws).diagnostics.total := by
  fun_induction ofRawTokens program d raws with
  | case1 d => exact absurd hraw List.not_mem_nil
  | case2 d first raws hfull => exact absurd hroom (Nat.not_lt.2 hfull)
  | case3 d first raws hopen token hread rest ih =>
    rcases List.mem_cons.1 hraw with rfl | hraw
    · rw [hread] at he
      cases he
    · exact ih hroom hraw
  | case4 d first raws hopen e' hread ih =>
    have hpushed : d.total < (d.push (e'.report program first)).total := Nat.lt_succ_self _
    exact Nat.lt_of_lt_of_le hpushed total_le_ofRawTokens

end Lexed

/-! ## Clean sources -/

namespace Source

/-- Whether every raw token of a source has a meaning. -/
def Decodes (source : String) : Prop :=
  ∀ raw ∈ rawTokens source, ∃ t, Token.ofWire raw.text = .ok t

instance (source : String) : Decidable (Decodes source) :=
  decidable_of_iff (∀ raw ∈ rawTokens source, (Token.ofWire raw.text).isOk = true)
    (forall₂_congr fun _ _ => isOk_iff)

theorem not_decodes_iff {source : String} :
    ¬ Decodes source ↔ ∃ raw ∈ rawTokens source, ∃ e, Token.ofWire raw.text = .error e := by
  constructor
  · intro h
    refine Classical.byContradiction fun hnone => h fun raw hraw => ?_
    cases hread : Token.ofWire raw.text with
    | ok t => exact ⟨t, rfl⟩
    | error e => exact absurd ⟨raw, hraw, e, hread⟩ hnone
  · rintro ⟨raw, hraw, e, he⟩ h
    obtain ⟨t, ht⟩ := h raw hraw
    rw [ht] at he
    cases he

/-- Whether a source is clean depends on the texts of its raw tokens. -/
theorem decodes_iff_forall_text {source : String} :
    Decodes source ↔
      ∀ w ∈ (rawTokens source).map (·.text), ∃ t, Token.ofWire w = .ok t := by
  simp only [Decodes, List.mem_map, forall_exists_index, and_imp, forall_apply_eq_imp_iff₂]

/-- Two texts with a gap between them are clean exactly if both are. -/
theorem decodes_append_iff {source gap rest : String} (hne : gap ≠ "") (hgap : IsGap gap.toList) :
    Decodes (source ++ gap ++ rest) ↔ Decodes source ∧ Decodes rest := by
  rw [decodes_iff_forall_text, decodes_iff_forall_text, decodes_iff_forall_text,
    map_text_rawTokens_append hne hgap, List.forall_mem_append]

end Source

/-- Texts that all have a meaning stand for a sequence of tokens. -/
theorem Token.exists_map_ofWire {ws : List String} (h : ∀ w ∈ ws, ∃ t, ofWire w = .ok t) :
    ∃ ts : List Token, ws.map ofWire = ts.map .ok := by
  induction ws with
  | nil => exact ⟨[], rfl⟩
  | cons w ws ih =>
    obtain ⟨⟨t, ht⟩, hws⟩ := List.forall_mem_cons.1 h
    obtain ⟨ts, hts⟩ := ih hws
    exact ⟨t :: ts, by rw [List.map_cons, List.map_cons, ht, hts]⟩

theorem Token.length_of_map_ofWire {ws : List String} {ts : List Token}
    (h : ws.map ofWire = ts.map .ok) : ts.length = ws.length := by
  have hlength := congrArg List.length h
  rw [List.length_map, List.length_map] at hlength
  exact hlength.symm

namespace Lexed

/-- **Clean sources.**  Lexing a clean source reports nothing, and reads the tokens that the raw
tokens stand for, each in the place of its raw token. -/
theorem exists_tokens_of_decodes {source : String} (h : Source.Decodes source)
    (program : String) :
    ∃ ts : List Token, ((Source.rawTokens source).map (·.text)).map Token.ofWire = ts.map .ok ∧
      (ofSource program source).diagnostics = .empty ∧
      (ofSource program source).tokens.map (·.token) = ts ∧
      (ofSource program source).tokens.map (·.span) =
        (Source.rawTokens source).map (·.span) := by
  obtain ⟨ts, hts⟩ := Token.exists_map_ofWire (Source.decodes_iff_forall_text.1 h)
  exact ⟨ts, hts, ofRawTokens_of_decodes (by decide) hts⟩

/-- **Errors.**  Lexing has errors exactly if some raw token of the source has no meaning. -/
theorem hasErrors_ofSource_iff {program source : String} :
    (ofSource program source).diagnostics.hasErrors = true ↔ ¬ Source.Decodes source := by
  constructor
  · intro herrors h
    obtain ⟨ts, -, hclean, -⟩ := exists_tokens_of_decodes h program
    rw [hclean] at herrors
    cases herrors
  · intro h
    obtain ⟨raw, hraw, e, he⟩ := Source.not_decodes_iff.1 h
    have hempty : Diagnostics.empty.total < Diagnostics.maxStored := by decide
    exact decide_eq_true (total_lt_ofRawTokens hempty hraw he)

theorem not_hasErrors_of_decodes {source : String} (h : Source.Decodes source)
    (program : String) : ¬ (ofSource program source).diagnostics.hasErrors = true :=
  fun herrors => hasErrors_ofSource_iff.1 herrors h

end Lexed

/-! ## The token to blame -/

/-- The report on a build error of a clean source is located at the raw token whose number is the
position to blame, if there is one, and quotes that raw token. -/
theorem BuildError.report_of_decodes {source : String} (h : Source.Decodes source)
    (program : String) (e : BuildError) :
    e.report program source (Lexed.ofSource program source).tokens =
      match e.parentIndex?.bind ((Source.rawTokens source)[·]?) with
      | none => .unlocated program e.code e.message
      | some raw => (Report.unlocated program e.code e.message).located raw.span raw.text := by
  obtain ⟨ts, -, -, -, hspans⟩ := Lexed.exists_tokens_of_decodes h program
  rw [report]
  cases e.parentIndex? with
  | none => rfl
  | some i =>
    have hat : ((Lexed.ofSource program source).tokens[i]?).map (·.span) =
        ((Source.rawTokens source)[i]?).map (·.span) := by
      rw [← List.getElem?_map, hspans, List.getElem?_map]
    simp only [Option.bind_some]
    cases hraw : (Source.rawTokens source)[i]? with
    | none =>
      rw [hraw] at hat
      rw [Option.map_eq_none_iff.1 hat]
    | some raw =>
      rw [hraw] at hat
      obtain ⟨t, ht, hspan⟩ := Option.map_eq_some_iff.1 hat
      have htext : Source.text? source raw.span = some raw.text :=
        Source.text?_of_mem_rawTokens (List.mem_of_getElem? hraw)
      simp only [ht, hspan, htext]

end WireLambda
