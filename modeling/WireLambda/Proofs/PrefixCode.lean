import WireLambda.Proofs.ReadBack

/-!
# Prefix order as a code

Written in prefix order, trees need no brackets: where one tree ends and the next begins can
be told by counting.  An open node wants a number of expressions besides the next one, and
`wanted` is what the open nodes want in all.  A token begins one of the expressions that are
wanted and adds as many as it has operands, so after some tokens the number has changed by
their `Token.excess`.

`readFrom_counts` says that the reader does count, in any context: it stops behind the first
tokens that are enough (`Suffices`), and fails if the tokens are `Lacking`.  The trees that
it has in hand do not matter to that.

`prefix_code` joins this with `Proofs.ReadBack`, where reading was found to be the inverse
of writing.
-/

namespace WireLambda

/-! ## What open nodes want -/

namespace Hole

/-- How many operands a node lacks besides the next one. -/
def later : Hole → Nat
  | operand _ | right _ _ | body _ | elseBranch _ _ => 0
  | left _ | thenBranch _ => 1
  | condition => 2

theorem later_of_fill_inl {hole : Hole} {e parent : Expr} (h : hole.fill e = .inl parent) :
    hole.later = 0 := by
  cases hole with
  | left op | condition | thenBranch c => exact absurd h (by simp [fill])
  | operand op | right op l | body x | elseBranch c t => rfl

theorem later_of_fill_inr {hole hole' : Hole} {e : Expr} (h : hole.fill e = .inr hole') :
    hole.later = hole'.later + 1 := by
  cases hole with
  | operand op | right op l | body x | elseBranch c t => exact absurd h (by simp [fill])
  | left op | condition | thenBranch c =>
    obtain rfl := Sum.inr.inj h
    rfl

end Hole

namespace Token

theorem arity_of_begin_inl {t : Token} {e : Expr} (h : t.begin = .inl e) : t.arity = 0 := by
  cases t with
  | literal s | var x => rfl
  | unary op | binary op | ite | lambda x => exact absurd h (by simp [begin])

theorem arity_of_begin_inr {t : Token} {hole : Hole} (h : t.begin = .inr hole) :
    t.arity = hole.later + 1 := by
  cases t with
  | literal s | var x => exact absurd h (by simp [begin])
  | unary op | binary op | ite | lambda x =>
    obtain rfl := Sum.inr.inj h
    rfl

end Token

/-- How many expressions are wanted inside open nodes: the next one, and what each node
lacks besides it. -/
def wanted : List OpenNode → Nat
  | [] => 1
  | node :: outer => node.hole.later + wanted outer

@[simp] theorem wanted_cons (index : Nat) (hole : Hole) (outer : List OpenNode) :
    wanted (⟨index, hole⟩ :: outer) = hole.later + wanted outer := rfl

theorem one_le_wanted (outer : List OpenNode) : 1 ≤ wanted outer := by
  induction outer with
  | nil => exact Nat.le_refl 1
  | cons node outer ih => exact Nat.le_add_left_of_le ih

/-- How many expressions are wanted once one is complete. -/
def Progress.wanted : Progress → Nat
  | complete _ => 0
  | inside node outer => WireLambda.wanted (node :: outer)

/-- Completing an expression inside open nodes is one of those that are wanted there, whatever
nodes it completes in turn. -/
theorem wanted_eq_ofExpr (e : Expr) (outer : List OpenNode) :
    wanted outer = (Progress.ofExpr e outer).wanted + 1 := by
  induction outer generalizing e with
  | nil => rfl
  | cons node outer ih =>
    rw [wanted]
    cases hfill : node.hole.fill e with
    | inl parent =>
      rw [ofExpr_cons_inl hfill, ← ih, Hole.later_of_fill_inl hfill, Nat.zero_add]
    | inr hole =>
      rw [ofExpr_cons_inr hfill, Progress.wanted, wanted_cons, Hole.later_of_fill_inr hfill,
        Nat.add_right_comm]

/-! ## Enough tokens -/

/-- How many more expressions some tokens want than they begin: each begins one, and wants
as many as it has operands. -/
def Token.excess : List Token → Int
  | [] => 0
  | t :: ts => ((t.arity : Int) - 1) + excess ts

/-- With `n` expressions wanted, `k` tokens are enough, and no fewer are. -/
structure Suffices (n : Int) (ts : List Token) (k : Nat) : Prop where
  le_length : k ≤ ts.length
  eq_zero : n + Token.excess (ts.take k) = 0
  pos : ∀ j < k, 0 < n + Token.excess (ts.take j)

/-- The tokens never are enough for `n` expressions. -/
def Lacking (n : Int) (ts : List Token) : Prop := ∀ j, 0 < n + Token.excess (ts.take j)

/-- A token takes one of the expressions that are wanted, and adds its operands. -/
theorem excess_take_succ (n : Int) (t : Token) (ts : List Token) (j : Nat) :
    n + Token.excess ((t :: ts).take (j + 1)) =
      (n - 1 + t.arity) + Token.excess (ts.take j) := by
  rw [List.take_succ_cons, Token.excess]
  omega

theorem Suffices.cons {n : Int} {t : Token} {ts : List Token} {k : Nat} (hn : 0 < n)
    (h : Suffices (n - 1 + t.arity) ts k) : Suffices n (t :: ts) (k + 1) where
  le_length := Nat.succ_le_succ h.le_length
  eq_zero := by rw [excess_take_succ, h.eq_zero]
  pos := by
    intro j hj
    cases j with
    | zero => simpa [Token.excess] using hn
    | succ j =>
      rw [excess_take_succ]
      exact h.pos j (Nat.lt_of_succ_lt_succ hj)

theorem Lacking.cons {n : Int} {t : Token} {ts : List Token} (hn : 0 < n)
    (h : Lacking (n - 1 + t.arity) ts) : Lacking n (t :: ts) := by
  intro j
  cases j with
  | zero => simpa [Token.excess] using hn
  | succ j =>
    rw [excess_take_succ]
    exact h j

theorem Suffices.not_lacking {n : Int} {ts : List Token} {k : Nat} (h : Suffices n ts k) :
    ¬ Lacking n ts := by
  intro hlacking
  have hpos := hlacking k
  rw [h.eq_zero] at hpos
  exact absurd hpos (Int.lt_irrefl 0)

/-- No tokens are not enough. -/
theorem Suffices.length_pos {n : Int} {ts : List Token} {k : Nat} (hn : 0 < n)
    (h : Suffices n ts k) : 0 < k := by
  refine Nat.pos_of_ne_zero fun hk => ?_
  have hzero := h.eq_zero
  rw [hk, List.take_zero, Token.excess, Int.add_zero] at hzero
  exact absurd hzero (Int.ne_of_gt hn)

/-- The number of tokens that are enough is determined. -/
theorem Suffices.unique {n : Int} {ts : List Token} {k k' : Nat} (h : Suffices n ts k)
    (h' : Suffices n ts k') : k = k' := by
  rcases Nat.lt_trichotomy k k' with hlt | heq | hlt
  · have hpos := h'.pos k hlt
    rw [h.eq_zero] at hpos
    exact absurd hpos (Int.lt_irrefl 0)
  · exact heq
  · have hpos := h.pos k' hlt
    rw [h'.eq_zero] at hpos
    exact absurd hpos (Int.lt_irrefl 0)

/-! ## The reader counts -/

/-- What the count says of the outcome of reading. -/
def Counts (n : Int) (position : Nat) (ts : List Token) :
    Except BuildError Expr × Nat → Prop
  | (.ok _, stop) => ∃ k, stop = position + k ∧ Suffices n ts k
  | (.error _, _) => Lacking n ts

theorem Counts.cons {n : Int} {position : Nat} {t : Token} {ts : List Token}
    {result : Except BuildError Expr × Nat} (hn : 0 < n)
    (h : Counts (n - 1 + t.arity) (position + 1) ts result) :
    Counts n position (t :: ts) result := by
  obtain ⟨outcome, stop⟩ := result
  cases outcome with
  | error err => exact Lacking.cons hn h
  | ok e =>
    rcases h with ⟨k, hstop, hk⟩
    exact ⟨k + 1, by omega, hk.cons hn⟩

/-- **The reader counts.**  It stops behind the first tokens that are enough for what its
open nodes want, and it fails if there are none. -/
theorem readFrom_counts (position : Nat) (outer : List OpenNode) (ts : List Token) :
    Counts (wanted outer) position ts (readFrom position outer ts) := by
  have hpos : (0 : Int) < wanted outer := Int.natCast_pos.2 (one_le_wanted outer)
  induction ts generalizing position outer with
  | nil =>
    intro j
    rw [List.take_nil, Token.excess, Int.add_zero]
    exact hpos
  | cons t ts ih =>
    have hstep : ∀ outer', Counts (wanted outer') (position + 1) ts
        (readFrom (position + 1) outer' ts) :=
      fun outer' => ih _ _ (Int.natCast_pos.2 (one_le_wanted outer'))
    refine Counts.cons hpos ?_
    cases hbegin : t.begin with
    | inr hole =>
      have hwanted : (wanted outer : Int) - 1 + t.arity =
          wanted (⟨position, hole⟩ :: outer) := by
        rw [wanted_cons, Token.arity_of_begin_inr hbegin]
        omega
      rw [readFrom_open hbegin, hwanted]
      exact hstep _
    | inl e =>
      have hwanted : (wanted outer : Int) - 1 + t.arity =
          (Progress.ofExpr e outer).wanted := by
        rw [wanted_eq_ofExpr e outer, Token.arity_of_begin_inl hbegin]
        omega
      rw [readFrom_leaf hbegin, hwanted]
      cases Progress.ofExpr e outer with
      | inside node' outer' => exact hstep (node' :: outer')
      | complete whole =>
        exact ⟨0, rfl, Nat.zero_le _, rfl, fun j hj => absurd hj (Nat.not_lt_zero j)⟩

/-- A tree is read exactly as far as the tokens are enough for one expression. -/
theorem exists_readFrom_iff {position stop : Nat} {ts : List Token} :
    (∃ e, readFrom position [] ts = (.ok e, stop)) ↔
      ∃ k, stop = position + k ∧ Suffices 1 ts k := by
  have hcounts := readFrom_counts position [] ts
  constructor
  · intro h
    rcases h with ⟨e, h⟩
    rw [h] at hcounts
    exact hcounts
  · intro h
    rcases h with ⟨k, rfl, hk⟩
    generalize readFrom position [] ts = result at hcounts
    obtain ⟨outcome, stop⟩ := result
    cases outcome with
    | error err => exact absurd hcounts hk.not_lacking
    | ok e =>
      obtain ⟨k', rfl, hk'⟩ := hcounts
      rw [hk.unique hk']
      exact ⟨e, rfl⟩

/-- Some tokens are enough for one expression if the count is zero anywhere, and then it is
so after no fewer tokens. -/
theorem exists_suffices_one {ts : List Token} {k : Nat}
    (h : 1 + Token.excess (ts.take k) = 0) : ∃ k' ≤ k, Suffices 1 ts k' := by
  have hcounts := readFrom_counts 0 [] ts
  generalize readFrom 0 [] ts = result at hcounts
  obtain ⟨outcome, stop⟩ := result
  cases outcome with
  | error err => exact absurd h (Int.ne_of_gt (hcounts k))
  | ok e =>
    obtain ⟨k', -, hk'⟩ := hcounts
    exact ⟨k', Nat.le_of_not_lt fun hlt => Int.ne_of_gt (hk'.pos k hlt) h, hk'⟩

/-- For one expression, the tokens that are enough are those after which the count is zero
for the first time. -/
theorem suffices_one_iff {ts : List Token} {k : Nat} :
    Suffices 1 ts k ↔ 1 + Token.excess (ts.take k) = 0 ∧
      ∀ j < k, 1 + Token.excess (ts.take j) ≠ 0 := by
  constructor
  · intro h
    exact ⟨h.eq_zero, fun j hj => Int.ne_of_gt (h.pos j hj)⟩
  · intro h
    rcases h with ⟨hzero, hfirst⟩
    obtain ⟨k', hle, hk'⟩ := exists_suffices_one hzero
    rcases Nat.lt_or_eq_of_le hle with hlt | rfl
    · exact absurd hk'.eq_zero (hfirst k' hlt)
    · exact hk'

namespace Cursor

/-- A tree is read up to a place exactly if the count is zero there for the first time. -/
theorem exists_readExpr_iff {ts : List Token} {p q : Nat} :
    (∃ e, (mk ts p).readExpr = (.ok e, ⟨ts, q⟩)) ↔
      p ≤ q ∧ q ≤ ts.length ∧ 1 + Token.excess (ts.extract p q) = 0 ∧
        ∀ r, p ≤ r → r < q → 1 + Token.excess (ts.extract p r) ≠ 0 := by
  have hread : (∃ e, (mk ts p).readExpr = (.ok e, ⟨ts, q⟩)) ↔
      ∃ k, q = p + k ∧ Suffices 1 (ts.drop p) k := by
    rw [← exists_readFrom_iff]
    refine exists_congr fun e => ?_
    rw [readExpr_eq_iff]
    exact and_iff_left rfl
  rw [hread]
  constructor
  · rintro ⟨k, rfl, hk⟩
    obtain ⟨hzero, hfirst⟩ := suffices_one_iff.1 hk
    have hpos := hk.length_pos (by decide)
    have hle := hk.le_length
    rw [List.length_drop] at hle
    refine ⟨Nat.le_add_right _ _, by omega, ?_, fun r hpr hrq => ?_⟩
    · rw [extract_add]
      exact hzero
    · obtain ⟨j, rfl⟩ := Nat.exists_eq_add_of_le hpr
      rw [extract_add]
      exact hfirst j (by omega)
  · rintro ⟨hpq, hq, hzero, hfirst⟩
    obtain ⟨k, rfl⟩ := Nat.exists_eq_add_of_le hpq
    rw [extract_add] at hzero
    refine ⟨k, rfl, suffices_one_iff.2 ⟨hzero, fun j hj => ?_⟩⟩
    have h := hfirst (p + j) (Nat.le_add_right _ _) (by omega)
    rwa [extract_add] at h

end Cursor

/-! ## The main result -/

/-- **Prefix order is a code, and the reader decodes it.**

* Writing a tree down node by node, with the other trees pending, writes all its tokens before
  those of the next tree, and there are as many tokens as nodes are counted.
* A tree is read between two places exactly if its tokens stand between them, and there are
  as many of these as the tree has nodes.
* Something is read exactly if the count, which begins with one and changes by the number of
  operands less one at each token, reaches zero; and it is read up to the first place where
  the count does.
* Reading one tree after the other undoes writing one tree after the other, and stops where
  the tokens of the trees stop, whatever follows.
* No tree begins with the tokens of another one. -/
theorem prefix_code :
    (∀ (e : Expr) (pending : List Expr), e.emit = e.tokens ∧
      Expr.emitFrom (e :: pending) = e.emit ++ Expr.emitFrom pending) ∧
    (∀ ts p q e, (Cursor.mk ts p).readExpr = (.ok e, ⟨ts, q⟩) ↔
      p ≤ q ∧ q ≤ ts.length ∧ ts.extract p q = e.emit) ∧
    (∀ ts p q e, (Cursor.mk ts p).readExpr = (.ok e, ⟨ts, q⟩) →
      q - p = e.nodeCount ∧ e.nodeCount = e.emit.length ∧ e.nodeCount = e.size) ∧
    (∀ ts p, (∃ e c, (Cursor.mk ts p).readExpr = (.ok e, c)) ↔
      ∃ q, p ≤ q ∧ q ≤ ts.length ∧ 1 + Token.excess (ts.extract p q) = 0) ∧
    (∀ ts p q, (∃ e, (Cursor.mk ts p).readExpr = (.ok e, ⟨ts, q⟩)) ↔
      p ≤ q ∧ q ≤ ts.length ∧ 1 + Token.excess (ts.extract p q) = 0 ∧
        ∀ r, p ≤ r → r < q → 1 + Token.excess (ts.extract p r) ≠ 0) ∧
    (∀ n c c' es, Cursor.readExprs n c = (.ok es, c') ↔
      es.length = n ∧ es.flatMap Expr.emit <+: c.remaining ∧
        c' = c.advance (es.flatMap Expr.emit).length) ∧
    (∀ before es suffix, ∃ c',
      Cursor.readExprs es.length
          ⟨before ++ (es.flatMap Expr.emit ++ suffix), before.length⟩ = (.ok es, c') ∧
        c'.remaining = suffix) ∧
    (∀ e e' : Expr, e.emit <+: e'.emit ↔ e = e') := by
  have hemit : Expr.emit = Expr.tokens := funext Expr.emit_eq_tokens
  rw [hemit]
  refine ⟨fun e pending => ⟨rfl, Expr.emitFrom_cons e pending⟩,
    fun _ _ _ _ => Cursor.readExpr_eq_ok_iff_extract, fun ts p q e h => ?_,
    fun ts p => ?_, fun _ _ _ => Cursor.exists_readExpr_iff,
    fun _ _ _ _ => Cursor.readExprs_eq_ok_iff, fun before es suffix => ?_,
    fun _ _ => Expr.tokens_prefix_iff⟩
  · obtain ⟨-, hstop⟩ := Cursor.readExpr_eq_ok_iff.1 h
    have hq : q = p + e.tokens.length := congrArg Cursor.position hstop
    rw [hq, Nat.add_sub_cancel_left, e.length_tokens, e.nodeCount_eq_size]
    exact ⟨rfl, rfl, rfl⟩
  · constructor
    · rintro ⟨e, c, h⟩
      obtain ⟨-, rfl⟩ := Cursor.readExpr_eq_ok_iff.1 h
      obtain ⟨hpq, hq, hzero, -⟩ := Cursor.exists_readExpr_iff.1 ⟨e, h⟩
      exact ⟨_, hpq, hq, hzero⟩
    · rintro ⟨q, hpq, hq, hzero⟩
      obtain ⟨k, rfl⟩ := Nat.exists_eq_add_of_le hpq
      rw [Cursor.extract_add] at hzero
      obtain ⟨k', -, hk'⟩ := exists_suffices_one hzero
      obtain ⟨e, he⟩ := exists_readFrom_iff.2 ⟨k', rfl, hk'⟩
      exact ⟨e, ⟨ts, p + k'⟩, Cursor.readExpr_eq_iff.2 ⟨he, rfl⟩⟩
  · have hremaining : (Cursor.mk (before ++ (es.flatMap Expr.tokens ++ suffix))
        before.length).remaining = es.flatMap Expr.tokens ++ suffix := List.drop_left
    refine ⟨_, Cursor.readExprs_eq_ok_iff.2 ⟨rfl, ?_, rfl⟩, ?_⟩
    · rw [hremaining]
      exact List.prefix_append _ _
    · exact Cursor.remaining_advance hremaining

end WireLambda
