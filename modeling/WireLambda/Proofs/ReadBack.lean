import WireLambda.Expr.Cursor
import WireLambda.Outcome

/-!
# What is read is what is written

The reader takes the tokens of a tree and gives the tree (`readFrom_tokens`).  This file
adds the other direction, of any sequence of tokens, whether it is one of trees or not: a
tree that was read is written as the tokens it was read from.

What a reader has taken in is the nodes that are still open, and `openTokens` writes these
down again.  Every token that is taken in is the next one written down, whatever it completes
(`tokens_ofExpr`), and so nothing is lost or made up on the way (`tokens_of_readFrom`).

## Main results

* `readFrom_nil_eq_ok_iff`: a tree is read exactly where its tokens stand, and reading stops
  behind them.
* `Cursor.readExpr_eq_ok_iff`, `Cursor.readExprs_eq_ok_iff`: the same of a cursor, for one
  tree and for any number of trees in a row.
* `Cursor.readProgram_eq_ok_iff`: the same of a program, with what it leaves over.
* `Expr.tokens_prefix_iff`: no tree begins with another one.
-/

namespace WireLambda

/-! ## What open nodes have taken in -/

namespace Hole

/-- The tokens of a node as far as it was read: its own, and those of the operands that it
already has. -/
def tokens : Hole → List Token
  | operand op => [.unary op]
  | left op => [.binary op]
  | right op l => .binary op :: l.tokens
  | body x => [.lambda x]
  | condition => [.ite]
  | thenBranch c => .ite :: c.tokens
  | elseBranch c t => .ite :: (c.tokens ++ t.tokens)

theorem tokens_of_fill_inl {hole : Hole} {e parent : Expr} (h : hole.fill e = .inl parent) :
    parent.tokens = hole.tokens ++ e.tokens := by
  cases hole with
  | left op | condition | thenBranch c => exact absurd h (by simp [fill])
  | operand op | right op l | body x | elseBranch c t =>
    obtain rfl := Sum.inl.inj h
    simp [tokens, Expr.tokens]

theorem tokens_of_fill_inr {hole hole' : Hole} {e : Expr} (h : hole.fill e = .inr hole') :
    hole'.tokens = hole.tokens ++ e.tokens := by
  cases hole with
  | operand op | right op l | body x | elseBranch c t => exact absurd h (by simp [fill])
  | left op | condition | thenBranch c =>
    obtain rfl := Sum.inr.inj h
    simp [tokens]

end Hole

namespace Token

theorem tokens_of_begin_inl {t : Token} {e : Expr} (h : t.begin = .inl e) :
    e.tokens = [t] := by
  cases t with
  | literal s | var x =>
    obtain rfl := Sum.inl.inj h
    rfl
  | unary op | binary op | ite | lambda x => exact absurd h (by simp [begin])

theorem tokens_of_begin_inr {t : Token} {hole : Hole} (h : t.begin = .inr hole) :
    hole.tokens = [t] := by
  cases t with
  | literal s | var x => exact absurd h (by simp [begin])
  | unary op | binary op | ite | lambda x =>
    obtain rfl := Sum.inr.inj h
    rfl

end Token

/-- The tokens that were taken in by open nodes, the innermost of which comes first in the
list and last in the source. -/
def openTokens : List OpenNode → List Token
  | [] => []
  | node :: outer => openTokens outer ++ node.hole.tokens

@[simp] theorem openTokens_cons (index : Nat) (hole : Hole) (outer : List OpenNode) :
    openTokens (⟨index, hole⟩ :: outer) = openTokens outer ++ hole.tokens := rfl

/-- The tokens that were taken in once an expression is complete. -/
def Progress.tokens : Progress → List Token
  | complete e => e.tokens
  | inside node outer => openTokens (node :: outer)

/-- Completing an expression inside open nodes writes it behind them, whatever nodes that
completes in turn. -/
theorem tokens_ofExpr (e : Expr) (outer : List OpenNode) :
    (Progress.ofExpr e outer).tokens = openTokens outer ++ e.tokens := by
  induction outer generalizing e with
  | nil => rfl
  | cons node outer ih =>
    rw [openTokens, List.append_assoc]
    cases hfill : node.hole.fill e with
    | inl parent => rw [ofExpr_cons_inl hfill, ih, Hole.tokens_of_fill_inl hfill]
    | inr hole =>
      rw [ofExpr_cons_inr hfill, Progress.tokens, openTokens_cons,
        Hole.tokens_of_fill_inr hfill]

/-- A tree that is read inside open nodes is written as what these had taken in, followed by
what was read. -/
theorem tokens_of_readFrom {position stop : Nat} {outer : List OpenNode} {ts : List Token}
    {whole : Expr} (h : readFrom position outer ts = (.ok whole, stop)) :
    ∃ read rest, ts = read ++ rest ∧ stop = position + read.length ∧
      whole.tokens = openTokens outer ++ read := by
  induction ts generalizing position outer with
  | nil => exact absurd h (by simp [readFrom])
  | cons t ts ih =>
    -- what is taken in after `t`, with `t` as its last token
    have hstep : ∀ outer', openTokens outer' = openTokens outer ++ [t] →
        readFrom (position + 1) outer' ts = (.ok whole, stop) →
        ∃ read rest, t :: ts = read ++ rest ∧ stop = position + read.length ∧
          whole.tokens = openTokens outer ++ read := by
      intro outer' hopen hread
      obtain ⟨read, rest, rfl, rfl, hwhole⟩ := ih hread
      refine ⟨t :: read, rest, rfl, by rw [List.length_cons]; omega, ?_⟩
      rw [hwhole, hopen, List.append_assoc]
      rfl
    cases hbegin : t.begin with
    | inr hole =>
      rw [readFrom_open hbegin] at h
      exact hstep _ (by rw [openTokens_cons, Token.tokens_of_begin_inr hbegin]) h
    | inl e =>
      have hprogress := tokens_ofExpr e outer
      rw [Token.tokens_of_begin_inl hbegin] at hprogress
      rw [readFrom_leaf hbegin] at h
      cases hcase : Progress.ofExpr e outer with
      | inside node' outer' =>
        rw [hcase] at h hprogress
        exact hstep _ hprogress h
      | complete whole' =>
        rw [hcase] at h hprogress
        obtain ⟨hwhole, rfl⟩ := Prod.mk.inj h
        obtain rfl := Except.ok.inj hwhole
        exact ⟨[t], ts, rfl, rfl, hprogress⟩

/-- **The reader inverts the writer.**  A tree is read exactly where its tokens stand, and
reading stops behind them. -/
theorem readFrom_nil_eq_ok_iff {position stop : Nat} {ts : List Token} {e : Expr} :
    readFrom position [] ts = (.ok e, stop) ↔
      e.tokens <+: ts ∧ stop = position + e.tokens.length := by
  constructor
  · intro h
    obtain ⟨read, rest, rfl, rfl, he⟩ := tokens_of_readFrom h
    obtain rfl : e.tokens = read := he
    exact ⟨List.prefix_append _ _, rfl⟩
  · intro h
    rcases h with ⟨⟨rest, rfl⟩, rfl⟩
    rw [readFrom_tokens, Expr.length_tokens]
    rfl

/-! ## Cursors -/

namespace Cursor

/-- Reading at a cursor is reading the tokens from there on. -/
theorem readExpr_eq_iff {c c' : Cursor} {outcome : Except BuildError Expr} :
    c.readExpr = (outcome, c') ↔
      readFrom c.position [] c.remaining = (outcome, c'.position) ∧ c'.tokens = c.tokens := by
  obtain ⟨tokens', position'⟩ := c'
  rw [readExpr]
  constructor
  · intro h
    obtain ⟨rfl, hcursor⟩ := Prod.mk.inj h
    obtain ⟨rfl, rfl⟩ := mk.inj hcursor
    exact ⟨rfl, rfl⟩
  · intro h
    rcases h with ⟨hread, rfl⟩
    rw [hread]

/-- The cursor after the next `n` tokens. -/
def advance (c : Cursor) (n : Nat) : Cursor := { c with position := c.position + n }

theorem advance_add (c : Cursor) (n m : Nat) : c.advance (n + m) = (c.advance n).advance m := by
  rw [advance, advance, advance, Nat.add_assoc]

theorem remaining_advance {c : Cursor} {read rest : List Token}
    (h : c.remaining = read ++ rest) : (c.advance read.length).remaining = rest := by
  show c.tokens.drop (c.position + read.length) = rest
  rw [← List.drop_drop]
  show c.remaining.drop read.length = rest
  rw [h, List.drop_left]

/-- **One tree.**  A cursor reads a tree exactly if its tokens stand there, and is then
behind them. -/
theorem readExpr_eq_ok_iff {c c' : Cursor} {e : Expr} :
    c.readExpr = (.ok e, c') ↔
      e.tokens <+: c.remaining ∧ c' = c.advance e.tokens.length := by
  rw [readExpr_eq_iff, readFrom_nil_eq_ok_iff, and_assoc]
  refine and_congr_right fun _ => ?_
  obtain ⟨tokens', position'⟩ := c'
  rw [advance, mk.injEq]
  exact and_comm

/-- Reads expressions one after the other, as many as wanted. -/
def readExprs : Nat → Cursor → Except BuildError (List Expr) × Cursor
  | 0, c => (.ok [], c)
  | n + 1, c =>
      match c.readExpr with
      | (.error err, c') => (.error err, c')
      | (.ok e, c') =>
          let r := readExprs n c'
          (r.1.map (e :: ·), r.2)

theorem readExprs_succ_eq_ok_iff {n : Nat} {c c' : Cursor} {es : List Expr} :
    c.readExprs (n + 1) = (.ok es, c') ↔
      ∃ e es₁ c₁, c.readExpr = (.ok e, c₁) ∧ c₁.readExprs n = (.ok es₁, c') ∧
        es = e :: es₁ := by
  rw [readExprs]
  rcases c.readExpr with ⟨outcome, c₁⟩
  cases outcome with
  | error err => simp
  | ok e =>
    simp only [Prod.mk.injEq, Except.ok.injEq]
    constructor
    · rintro ⟨hes, rfl⟩
      obtain ⟨es₁, hes₁, rfl⟩ := map_eq_ok_iff.1 hes
      exact ⟨e, es₁, c₁, ⟨rfl, rfl⟩, Prod.ext hes₁ rfl, rfl⟩
    · rintro ⟨e, es₁, c₁, ⟨rfl, rfl⟩, hrest, rfl⟩
      rw [hrest]
      exact ⟨rfl, rfl⟩

/-- **Any number of trees.**  A cursor reads trees one after the other exactly if their
tokens stand there in order, and is then behind them. -/
theorem readExprs_eq_ok_iff {n : Nat} {c c' : Cursor} {es : List Expr} :
    c.readExprs n = (.ok es, c') ↔ es.length = n ∧
      es.flatMap Expr.tokens <+: c.remaining ∧
      c' = c.advance (es.flatMap Expr.tokens).length := by
  induction n generalizing c es with
  | zero =>
    rw [readExprs, List.length_eq_zero_iff]
    constructor
    · intro h
      obtain ⟨hes, rfl⟩ := Prod.mk.inj h
      obtain rfl := Except.ok.inj hes
      exact ⟨rfl, List.nil_prefix, rfl⟩
    · rintro ⟨rfl, -, rfl⟩
      rfl
  | succ n ih =>
    rw [readExprs_succ_eq_ok_iff]
    constructor
    · rintro ⟨e, es, c₁, hread, hrest, rfl⟩
      obtain ⟨⟨after, hafter⟩, rfl⟩ := readExpr_eq_ok_iff.1 hread
      obtain ⟨rfl, hstand, rfl⟩ := ih.1 hrest
      rw [remaining_advance hafter.symm] at hstand
      rw [List.flatMap_cons, List.length_append, advance_add, ← hafter]
      exact ⟨rfl, (List.prefix_append_right_inj _).2 hstand, rfl⟩
    · rintro ⟨hlength, ⟨rest, hrest⟩, rfl⟩
      obtain ⟨e, es, rfl⟩ := List.exists_cons_of_length_eq_add_one hlength
      rw [List.flatMap_cons, List.append_assoc] at hrest
      refine ⟨e, es, c.advance e.tokens.length, ?_, ?_, rfl⟩
      · exact readExpr_eq_ok_iff.2 ⟨⟨_, hrest⟩, rfl⟩
      · refine ih.2 ⟨Nat.succ.inj hlength, ?_, ?_⟩
        · rw [remaining_advance hrest.symm]
          exact List.prefix_append _ _
        · rw [List.flatMap_cons, List.length_append, advance_add]

/-! ### Programs -/

/-- What a program leaves over, if reading stopped at some place. -/
def leftoverAt (ts : List Token) (stop : Nat) : Option Leftover :=
  if ts.length ≤ stop then none else some ⟨stop, ts.length - stop⟩

/-- Reading a program is reading one tree from the first token on. -/
theorem readProgram_start (ts : List Token) :
    (start ts).readProgram =
      (readFrom 0 [] ts).1.map fun e => (e, leftoverAt ts (readFrom 0 [] ts).2) := by
  have hread : readFrom (start ts).position [] (start ts).remaining = readFrom 0 [] ts := rfl
  rw [readProgram, readExpr, hread]
  obtain ⟨outcome, stop⟩ := readFrom 0 [] ts
  cases outcome with
  | error err => rfl
  | ok e =>
    show Except.ok (e, if decide (ts.length ≤ stop) = true then none
      else some ⟨stop, (ts.drop stop).length⟩) = .ok (e, leftoverAt ts stop)
    rw [List.length_drop, leftoverAt]
    simp only [decide_eq_true_eq]

/-- **Programs.**  A tree is read as a program exactly if its tokens come first, and all others
are left over. -/
theorem readProgram_eq_ok_iff {ts : List Token} {e : Expr} {leftover : Option Leftover} :
    (start ts).readProgram = .ok (e, leftover) ↔
      e.tokens <+: ts ∧ leftover = leftoverAt ts e.size := by
  rw [readProgram_start, map_eq_ok_iff]
  constructor
  · rintro ⟨e', hread, heq⟩
    obtain ⟨rfl, rfl⟩ := Prod.mk.inj heq
    obtain ⟨hstand, hstop⟩ := readFrom_nil_eq_ok_iff.1 (Prod.ext hread rfl)
    rw [Nat.zero_add, e'.length_tokens] at hstop
    exact ⟨hstand, congrArg (leftoverAt ts) hstop⟩
  · rintro ⟨hstand, rfl⟩
    have hread : readFrom 0 [] ts = (.ok e, e.size) := by
      rw [readFrom_nil_eq_ok_iff, Nat.zero_add, e.length_tokens]
      exact ⟨hstand, rfl⟩
    exact ⟨e, congrArg Prod.fst hread, by rw [hread]⟩

/-- The tokens between two places are the first ones from the first place on. -/
theorem extract_add (ts : List Token) (p k : Nat) :
    ts.extract p (p + k) = (ts.drop p).take k := by
  rw [List.extract_eq_take_drop, Nat.add_sub_cancel_left]

/-- Tokens stand from a place on exactly if they are the ones up to some place behind it. -/
theorem prefix_drop_iff {ts us : List Token} (hus : us ≠ []) {p q : Nat} :
    us <+: ts.drop p ∧ q = p + us.length ↔
      p ≤ q ∧ q ≤ ts.length ∧ ts.extract p q = us := by
  constructor
  · rintro ⟨⟨rest, hrest⟩, rfl⟩
    have hlength := congrArg List.length hrest
    have hpos := List.length_pos_iff.2 hus
    rw [List.length_append, List.length_drop] at hlength
    refine ⟨Nat.le_add_right _ _, by omega, ?_⟩
    rw [extract_add, ← hrest, List.take_left]
  · rintro ⟨hpq, hq, rfl⟩
    obtain ⟨k, rfl⟩ := Nat.exists_eq_add_of_le hpq
    have hk : k ≤ (ts.drop p).length := by rw [List.length_drop]; omega
    have hstand : (ts.drop p).take k <+: ts.drop p := List.take_prefix k _
    rw [extract_add, List.length_take_of_le hk]
    exact ⟨hstand, rfl⟩

/-- A tree is read between two places exactly if its tokens are the ones between them. -/
theorem readExpr_eq_ok_iff_extract {ts : List Token} {p q : Nat} {e : Expr} :
    (mk ts p).readExpr = (.ok e, ⟨ts, q⟩) ↔
      p ≤ q ∧ q ≤ ts.length ∧ ts.extract p q = e.tokens := by
  rw [readExpr_eq_ok_iff, advance, mk.injEq, ← prefix_drop_iff e.tokens_ne_nil]
  exact and_congr_right fun _ => and_iff_right rfl

end Cursor

/-- No tree begins with another one. -/
theorem Expr.tokens_prefix_iff {e e' : Expr} : e.tokens <+: e'.tokens ↔ e = e' := by
  constructor
  · intro h
    have hread : readFrom 0 [] e'.tokens = (.ok e, 0 + e.tokens.length) :=
      readFrom_nil_eq_ok_iff.2 ⟨h, rfl⟩
    rw [readFrom_nil_eq_ok_iff.2 ⟨List.prefix_rfl, rfl⟩] at hread
    exact (Except.ok.inj (Prod.mk.inj hread).1).symm
  · rintro rfl
    exact List.prefix_rfl

end WireLambda
