import WireLambda.Proofs.PrefixCode

/-!
# Where the tokens run out

Reading fails in one way only: the tokens run out.  If there was none to begin with, that is an
empty input; otherwise a node is still open, and the innermost one is blamed.

What the open nodes have taken in is then all that was there to be read (`openTokens`).  A node
that is open says at which position its token stands, and that is the position behind what the nodes
outside of it have taken in: `StandFrom` says so, and reading keeps it (`StandFrom.ofExpr`),
since to complete an expression moves on inside a node or closes it, and does neither move
the node nor change what the nodes outside have taken in.

So what stands from the blamed position on is the token of the node and the operands that it
already has (`exists_node_of_readFrom`).  No tree begins with these (`Hole.not_tokens_prefix`), as
the node is one that lacks an operand.  But behind its token they are whole trees, and at
each position inside a tree a tree begins (`Expr.beginsTrees_tokens`).  This characterises
the blamed position without open nodes: it is the last one where no tree begins.

The main result is `truncation_blames_innermost`; `Cursor.readProgram_eq_error` is what it says
about programs.
-/

namespace WireLambda

/-! ## Trees inside of trees -/

/-- At each of some tokens a tree begins. -/
def BeginsTrees (us : List Token) : Prop := ∀ k < us.length, ∃ e : Expr, e.tokens <+: us.drop k

theorem beginsTrees_nil : BeginsTrees [] := fun k hk => absurd hk (Nat.not_lt_zero k)

theorem BeginsTrees.append {us vs : List Token} (hus : BeginsTrees us) (hvs : BeginsTrees vs) :
    BeginsTrees (us ++ vs) := by
  intro k hk
  rcases Nat.lt_or_ge k us.length with hlt | hge
  · obtain ⟨e, he⟩ := hus k hlt
    rw [List.drop_append_of_le_length (Nat.le_of_lt hlt)]
    exact ⟨e, he.trans (List.prefix_append _ _)⟩
  · obtain ⟨j, rfl⟩ := Nat.exists_eq_add_of_le hge
    rw [List.length_append] at hk
    rw [List.drop_length_add_append]
    exact hvs j (Nat.lt_of_add_lt_add_left hk)

/-- A tree begins at the token of its root, if trees begin at the others. -/
theorem BeginsTrees.root {e : Expr} {t : Token} {us : List Token} (h : BeginsTrees us)
    (he : e.tokens = t :: us) : BeginsTrees e.tokens := by
  intro k hk
  cases k with
  | zero => exact ⟨e, List.prefix_rfl⟩
  | succ k =>
    rw [he] at hk ⊢
    exact h k (Nat.lt_of_succ_lt_succ hk)

/-- At each token of a tree a tree begins. -/
theorem Expr.beginsTrees_tokens (e : Expr) : BeginsTrees e.tokens := by
  induction e with
  | literal s => exact beginsTrees_nil.root rfl
  | var x => exact beginsTrees_nil.root rfl
  | unary op e ih => exact ih.root rfl
  | lambda x body ih => exact ih.root rfl
  | binary op l r ihl ihr => exact (ihl.append ihr).root rfl
  | ite c t e ihc iht ihe => exact ((ihc.append iht).append ihe).root rfl

namespace Hole

/-- A node that lacks an operand is written as its token and some whole trees. -/
theorem exists_tokens_eq_cons (hole : Hole) :
    ∃ us, hole.tokens = hole.token :: us ∧ BeginsTrees us := by
  cases hole with
  | operand op | left op | body x | condition => exact ⟨[], rfl, beginsTrees_nil⟩
  | right op l => exact ⟨l.tokens, rfl, l.beginsTrees_tokens⟩
  | thenBranch c => exact ⟨c.tokens, rfl, c.beginsTrees_tokens⟩
  | elseBranch c t =>
    exact ⟨c.tokens ++ t.tokens, rfl, c.beginsTrees_tokens.append t.beginsTrees_tokens⟩

/-- A node that lacks an operand is the beginning of a tree, and not the whole of it. -/
theorem exists_tokens_append_eq (hole : Hole) :
    ∃ (e : Expr) (rest : List Token), e.tokens = hole.tokens ++ rest ∧ rest ≠ [] := by
  let leaf : Expr := .literal (.bool true)
  cases hole with
  | operand op => exact ⟨.unary op leaf, leaf.tokens, rfl, leaf.tokens_ne_nil⟩
  | body x => exact ⟨.lambda x leaf, leaf.tokens, rfl, leaf.tokens_ne_nil⟩
  | left op =>
    exact ⟨.binary op leaf leaf, leaf.tokens ++ leaf.tokens, rfl, by simp [leaf.tokens_ne_nil]⟩
  | right op l => exact ⟨.binary op l leaf, leaf.tokens, rfl, leaf.tokens_ne_nil⟩
  | condition =>
    exact ⟨.ite leaf leaf leaf, leaf.tokens ++ leaf.tokens ++ leaf.tokens, rfl,
      by simp [leaf.tokens_ne_nil]⟩
  | thenBranch c =>
    refine ⟨.ite c leaf leaf, leaf.tokens ++ leaf.tokens, ?_, by simp [leaf.tokens_ne_nil]⟩
    simp [tokens, Expr.tokens]
  | elseBranch c t => exact ⟨.ite c t leaf, leaf.tokens, rfl, leaf.tokens_ne_nil⟩

/-- No tree stands at the beginning of a node that lacks an operand: it would be the beginning
of a tree as well. -/
theorem not_tokens_prefix (hole : Hole) (e : Expr) : ¬ e.tokens <+: hole.tokens := by
  intro h
  obtain ⟨whole, rest, hwhole, hrest⟩ := hole.exists_tokens_append_eq
  have hprefix : e.tokens <+: whole.tokens := by
    rw [hwhole]
    exact h.trans (List.prefix_append _ _)
  obtain rfl := Expr.tokens_prefix_iff.1 hprefix
  have hlength := h.length_le
  rw [hwhole, List.length_append] at hlength
  have hpos := List.length_pos_iff.2 hrest
  omega

end Hole

/-! ## Where open nodes stand -/

/-- Open nodes stand where they say, if the first of their tokens stands at `base`. -/
def StandFrom (base : Nat) : List OpenNode → Prop
  | [] => True
  | node :: outer => node.index = base + (openTokens outer).length ∧ StandFrom base outer

/-- Completing an expression leaves the nodes that are still open where they are. -/
theorem StandFrom.ofExpr {base : Nat} {outer outer' : List OpenNode} {node : OpenNode}
    {e : Expr} (h : StandFrom base outer)
    (hprogress : Progress.ofExpr e outer = .inside node outer') :
    StandFrom base (node :: outer') := by
  induction outer generalizing e with
  | nil => exact absurd hprogress (by simp [Progress.ofExpr])
  | cons first outer ih =>
    obtain ⟨hfirst, houter⟩ := h
    cases hfill : first.hole.fill e with
    | inl parent =>
      rw [ofExpr_cons_inl hfill] at hprogress
      exact ih houter hprogress
    | inr hole =>
      rw [ofExpr_cons_inr hfill] at hprogress
      obtain ⟨rfl, rfl⟩ := Progress.inside.inj hprogress
      exact ⟨hfirst, houter⟩

/-- **Running out.**  Reading fails at the end of the tokens, with open nodes that stand where
they say and have taken in all the tokens. -/
theorem exists_openTokens_of_readFrom {base position stop : Nat} {outer : List OpenNode}
    {ts : List Token} {err : BuildError} (hposition : position = base + (openTokens outer).length)
    (houter : StandFrom base outer) (h : readFrom position outer ts = (.error err, stop)) :
    stop = position + ts.length ∧ ∃ nodes, err = .atEnd stop nodes ∧ StandFrom base nodes ∧
      openTokens nodes = openTokens outer ++ ts := by
  induction ts generalizing position outer with
  | nil =>
    obtain ⟨herr, rfl⟩ := Prod.mk.inj h
    obtain rfl := Except.error.inj herr
    exact ⟨rfl, outer, rfl, houter, (List.append_nil _).symm⟩
  | cons t ts ih =>
    -- `t` is taken in by the nodes that are open after it
    have hstep : ∀ outer', StandFrom base outer' → openTokens outer' = openTokens outer ++ [t] →
        readFrom (position + 1) outer' ts = (.error err, stop) →
        stop = position + (t :: ts).length ∧ ∃ nodes, err = .atEnd stop nodes ∧
          StandFrom base nodes ∧ openTokens nodes = openTokens outer ++ t :: ts := by
      intro outer' hstand hopen hread
      have hnext : position + 1 = base + (openTokens outer').length := by
        rw [hopen, List.length_append, hposition]
        rfl
      obtain ⟨hstop, nodes, herr, hnodes, htokens⟩ := ih hnext hstand hread
      refine ⟨?_, nodes, herr, hnodes, ?_⟩
      · rw [hstop, List.length_cons]
        omega
      · rw [htokens, hopen, List.append_assoc]
        rfl
    cases hbegin : t.begin with
    | inr hole =>
      rw [readFrom_open hbegin] at h
      refine hstep (⟨position, hole⟩ :: outer) ⟨hposition, houter⟩ ?_ h
      rw [openTokens_cons, Token.tokens_of_begin_inr hbegin]
    | inl e =>
      have htokens := tokens_ofExpr e outer
      rw [Token.tokens_of_begin_inl hbegin] at htokens
      rw [readFrom_leaf hbegin] at h
      cases hprogress : Progress.ofExpr e outer with
      | complete whole =>
        rw [hprogress] at h
        exact absurd h (by simp [resumeFrom])
      | inside node outer' =>
        rw [hprogress] at h htokens
        exact hstep _ (houter.ofExpr hprogress) htokens h

/-- **Blame.**  Reading from a position fails because there is no token, and then takes none, or
because the tokens run out inside a node which has taken in all that stands from its position
on. -/
theorem exists_node_of_readFrom {ts : List Token} {p stop : Nat} {err : BuildError}
    (h : readFrom p [] (ts.drop p) = (.error err, stop)) :
    (ts.length ≤ p ∧ err = .emptyInput ∧ stop = p) ∨
      ∃ node : OpenNode, p ≤ node.index ∧ ts.drop node.index = node.hole.tokens ∧
        err = .truncated node.hole.token node.index ts.length ∧ stop = ts.length := by
  obtain ⟨hstop, nodes, rfl, hnodes, htokens⟩ :=
    @exists_openTokens_of_readFrom p p stop [] (ts.drop p) err rfl trivial h
  cases nodes with
  | nil =>
    have hnone : [] = ts.drop p := htokens
    rw [← hnone] at hstop
    exact .inl ⟨List.drop_eq_nil_iff.1 hnone.symm, rfl, hstop⟩
  | cons node outer =>
    obtain ⟨hindex, -⟩ := hnodes
    have hall : openTokens outer ++ node.hole.tokens = ts.drop p := htokens
    have hdrop : ts.drop node.index = node.hole.tokens := by
      rw [hindex, ← List.drop_drop, ← hall, List.drop_left]
    obtain ⟨us, hus, -⟩ := node.hole.exists_tokens_eq_cons
    have hend : p + (ts.drop p).length = ts.length := by
      have hlength := congrArg List.length hall
      rw [List.length_append, hus, List.length_cons, List.length_drop] at hlength
      rw [List.length_drop]
      omega
    rw [hend] at hstop
    exact .inr ⟨node, hindex ▸ Nat.le_add_right _ _, hdrop, by rw [hstop]; rfl, hstop⟩

/-! ### What stands from the blamed position on -/

section Blamed

variable {ts : List Token} {i : Nat} {hole : Hole}

/-- The token of a node stands where the tokens that it has taken in begin. -/
theorem getElem?_of_drop_eq (h : ts.drop i = hole.tokens) : ts[i]? = some hole.token := by
  obtain ⟨us, hus, -⟩ := hole.exists_tokens_eq_cons
  rw [← List.head?_drop, h, hus]
  rfl

theorem lt_length_of_drop_eq (h : ts.drop i = hole.tokens) : i < ts.length :=
  (List.getElem?_eq_some_iff.1 (getElem?_of_drop_eq h)).1

/-- Where a node has taken in all that stands, a tree begins at every later position. -/
theorem exists_prefix_of_lt (h : ts.drop i = hole.tokens) {r : Nat} (hr : i < r)
    (hlength : r < ts.length) : ∃ e : Expr, e.tokens <+: ts.drop r := by
  obtain ⟨us, hus, hbegins⟩ := hole.exists_tokens_eq_cons
  obtain ⟨k, rfl⟩ := Nat.exists_eq_add_of_lt hr
  have hrest : ts.drop (i + k + 1) = us.drop k := by
    rw [Nat.add_assoc, ← List.drop_drop, h, hus, List.drop_succ_cons]
  have hk : k < us.length := by
    have hnode := congrArg List.length (h.trans hus)
    rw [List.length_drop, List.length_cons] at hnode
    omega
  rw [hrest]
  exact hbegins k hk

end Blamed

namespace Cursor

/-- No program is read where there is no token, or where the tokens run out inside the node that
the token to blame opened. -/
theorem readProgram_eq_error {ts : List Token} {err : BuildError}
    (h : (start ts).readProgram = .error err) :
    (ts = [] ∧ err = .emptyInput) ∨
      ∃ parent i, ts[i]? = some parent ∧ err = .truncated parent i ts.length := by
  rw [readProgram_start] at h
  have hread : readFrom 0 [] (ts.drop 0) = (.error err, (readFrom 0 [] ts).2) :=
    Prod.ext (map_eq_error_iff.1 h) rfl
  rcases exists_node_of_readFrom hread with ⟨hnone, rfl, -⟩ | ⟨node, -, hdrop, rfl, -⟩
  · exact .inl ⟨List.eq_nil_of_length_eq_zero (Nat.le_zero.1 hnone), rfl⟩
  · exact .inr ⟨_, _, getElem?_of_drop_eq hdrop, rfl⟩

/-- A cursor that fails is left where it was if there is no token, and at the end if the tokens run
out inside a node, which has then taken in all that stands from its position on. -/
theorem exists_node_of_readExpr {ts : List Token} {p : Nat} {err : BuildError} {c : Cursor}
    (h : (mk ts p).readExpr = (.error err, c)) :
    (ts.length ≤ p ∧ err = .emptyInput ∧ c = ⟨ts, p⟩) ∨
      ∃ node : OpenNode, p ≤ node.index ∧ ts.drop node.index = node.hole.tokens ∧
        err = .truncated node.hole.token node.index ts.length ∧ c = ⟨ts, ts.length⟩ := by
  obtain ⟨hread, htokens⟩ := readExpr_eq_iff.1 h
  have hc : ∀ stop, c.position = stop → c = ⟨ts, stop⟩ := by
    rintro stop rfl
    rw [← (show c.tokens = ts from htokens)]
  rcases exists_node_of_readFrom hread with ⟨hnone, rfl, hstop⟩ | ⟨node, hp, hdrop, rfl, hstop⟩
  · exact .inl ⟨hnone, rfl, hc p hstop⟩
  · exact .inr ⟨node, hp, hdrop, rfl, hc ts.length hstop⟩

/-- Reading at a cursor fails exactly if the tokens are never enough for one expression. -/
theorem exists_readExpr_error_iff {ts : List Token} {p : Nat} (hp : p ≤ ts.length) :
    (∃ err c, (mk ts p).readExpr = (.error err, c)) ↔
      ∀ r, p ≤ r → r ≤ ts.length → 0 < 1 + Token.excess (ts.extract p r) := by
  have hcounts := readFrom_counts p [] (ts.drop p)
  constructor
  · rintro ⟨err, c, h⟩ r hpr -
    obtain ⟨hread, -⟩ := readExpr_eq_iff.1 h
    have hread : readFrom p [] (ts.drop p) = (.error err, c.position) := hread
    rw [hread] at hcounts
    obtain ⟨j, rfl⟩ := Nat.exists_eq_add_of_le hpr
    rw [extract_add]
    exact hcounts j
  · intro h
    cases hread : readFrom p [] (ts.drop p) with
    | mk outcome stop =>
      cases outcome with
      | error err => exact ⟨err, ⟨ts, stop⟩, readExpr_eq_iff.2 ⟨hread, rfl⟩⟩
      | ok e =>
        rw [hread] at hcounts
        obtain ⟨k, -, hk⟩ := hcounts
        have hle := hk.le_length
        rw [List.length_drop] at hle
        have hpos := h (p + k) (Nat.le_add_right _ _) (by omega)
        rw [extract_add] at hpos
        exact absurd hk.eq_zero (Int.ne_of_gt hpos)

end Cursor

/-! ## The main result -/

/-- **A truncated input is blamed on the innermost node that lacks an operand.**

* Reading at a cursor finds an empty input exactly if the cursor is at the end or beyond, and leaves
  it there.
* It finds the input truncated exactly if there are tokens from the cursor on, but the count,
  which begins with one and changes by the number of operands less one at each token, stays
  positive on all of them.
* The cursor is then at the end of the tokens, the missing operand is reported for that
  position, and the blamed position is the last one where no tree begins.  The report shows the
  token at that position.
* There are no other failures. -/
theorem truncation_blames_innermost (ts : List Token) (p : Nat) :
    (∀ c, (Cursor.mk ts p).readExpr = (.error .emptyInput, c) ↔
      ts.length ≤ p ∧ c = ⟨ts, p⟩) ∧
    ((∃ parent i index c,
        (Cursor.mk ts p).readExpr = (.error (.truncated parent i index), c)) ↔
      p < ts.length ∧
        ∀ r, p ≤ r → r ≤ ts.length → 0 < 1 + Token.excess (ts.extract p r)) ∧
    (∀ parent i index c,
      (Cursor.mk ts p).readExpr = (.error (.truncated parent i index), c) →
        c = ⟨ts, ts.length⟩ ∧ index = ts.length ∧
        (p ≤ i ∧ i < ts.length ∧ (∀ e : Expr, ¬ e.tokens <+: ts.drop i) ∧
          ∀ r, i < r → r < ts.length → ∃ e : Expr, e.tokens <+: ts.drop r) ∧
        ts[i]? = some parent ∧
        (BuildError.truncated parent i index).message =
          "empty input: " ++ parent.display ++ " at token " ++ i.repr ++
            " is missing an operand at token " ++ ts.length.repr) ∧
    (∀ err c, (Cursor.mk ts p).readExpr = (.error err, c) →
      err = .emptyInput ∨ ∃ parent i, err = .truncated parent i ts.length) := by
  refine ⟨fun c => ?_, ?_, ?_, ?_⟩
  · constructor
    · intro h
      rcases Cursor.exists_node_of_readExpr h with ⟨hnone, -, rfl⟩ | ⟨node, -, -, herr, -⟩
      · exact ⟨hnone, rfl⟩
      · cases herr
    · rintro ⟨hnone, rfl⟩
      refine Cursor.readExpr_eq_iff.2 ⟨?_, rfl⟩
      show readFrom p [] (ts.drop p) = _
      rw [List.drop_eq_nil_of_le hnone]
      rfl
  · constructor
    · rintro ⟨parent, i, index, c, h⟩
      rcases Cursor.exists_node_of_readExpr h with ⟨-, herr, -⟩ | ⟨node, hp, hdrop, -, -⟩
      · cases herr
      · have hindex := lt_length_of_drop_eq hdrop
        have hlt : p < ts.length := Nat.lt_of_le_of_lt hp hindex
        exact ⟨hlt, (Cursor.exists_readExpr_error_iff (Nat.le_of_lt hlt)).1 ⟨_, _, h⟩⟩
    · rintro ⟨hlt, hcount⟩
      obtain ⟨err, c, h⟩ := (Cursor.exists_readExpr_error_iff (Nat.le_of_lt hlt)).2 hcount
      rcases Cursor.exists_node_of_readExpr h with ⟨hnone, -, -⟩ | ⟨node, -, -, rfl, -⟩
      · exact absurd hnone (Nat.not_le_of_lt hlt)
      · exact ⟨_, _, _, _, h⟩
  · intro parent i index c h
    rcases Cursor.exists_node_of_readExpr h with ⟨-, herr, -⟩ | ⟨node, hp, hdrop, herr, rfl⟩
    · cases herr
    · obtain ⟨rfl, rfl, rfl⟩ := BuildError.truncated.inj herr
      refine ⟨rfl, rfl, ⟨hp, lt_length_of_drop_eq hdrop, ?_, ?_⟩, getElem?_of_drop_eq hdrop, rfl⟩
      · rw [hdrop]
        exact node.hole.not_tokens_prefix
      · exact fun r => exists_prefix_of_lt hdrop
  · intro err c h
    rcases Cursor.exists_node_of_readExpr h with ⟨-, rfl, -⟩ | ⟨node, -, -, rfl, -⟩
    · exact .inl rfl
    · exact .inr ⟨_, _, rfl⟩

/-- A conditional that ends inside its second operand, a sum of which only one is there. -/
def cutOff : List Token := [.ite, .literal (.bool true), .binary .add, .literal (.int 1)]

/-- The sum is blamed, and not the conditional that wants another operand as well. -/
theorem truncation_blames_innermost_cutOff :
    (Cursor.mk cutOff 0).readExpr =
        (.error (.truncated (.binary .add) 2 4), ⟨cutOff, cutOff.length⟩) ∧
      (∀ r, 0 ≤ r → r ≤ cutOff.length → 0 < 1 + Token.excess (cutOff.extract 0 r)) ∧
      (∀ e : Expr, ¬ e.tokens <+: cutOff.drop 2) ∧
      (∀ r, 2 < r → r < cutOff.length → ∃ e : Expr, e.tokens <+: cutOff.drop r) ∧
      (BuildError.truncated (.binary .add) 2 4).message =
        "empty input: binary add at token 2 is missing an operand at token 4" ∧
      (Cursor.mk cutOff 4).readExpr = (.error .emptyInput, ⟨cutOff, 4⟩) := by
  have hread : (Cursor.mk cutOff 0).readExpr =
      (.error (.truncated (.binary .add) 2 4), ⟨cutOff, cutOff.length⟩) := by rfl
  obtain ⟨-, hcount, hblame, -⟩ := truncation_blames_innermost cutOff 0
  obtain ⟨-, -, ⟨-, -, hnone, hlater⟩, -, -⟩ := hblame _ _ _ _ hread
  obtain ⟨-, hpositive⟩ := hcount.1 ⟨_, _, _, _, hread⟩
  obtain ⟨hempty, -⟩ := truncation_blames_innermost cutOff 4
  exact ⟨hread, hpositive, hnone, hlater, by decide, (hempty _).2 ⟨Nat.le_refl 4, rfl⟩⟩

end WireLambda
