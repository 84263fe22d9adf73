/-!
# Source text and its raw tokens

A source text is a sequence of raw tokens separated by blanks.  Exactly five characters
separate: the space, the tab, the line feed, the form feed and the carriage return.  Any
other character belongs to a token, the remaining kinds of space included.

A raw token keeps where it was found, as a `Span`: its number among the tokens of the
text, and the bytes it takes up when the text is encoded in UTF-8.  `Source.text?` cuts a
span out of a text again, if the span begins and ends where characters do.

`splitFrom` goes through the text once, from left to right.  It keeps the token that is open, if
there is one: a separator closes it, another character extends it or opens one, and the end of
the text closes what is still open.

`rawTokensFrom` says the same by whole tokens: a separator is skipped, and any other character
begins a token that extends as far as there is no separator (`splitFrom_eq`).  Its three
equations `rawTokensFrom_nil`, `rawTokensFrom_separator` and `rawTokensFrom_token` are all that is
needed to reason about splitting.
-/

namespace WireLambda

/-- The place of a raw token: its number, and where its bytes start and stop. -/
structure Span where
  index : Nat
  start : Nat
  stop : Nat
  deriving DecidableEq

namespace Span

/-- How many bytes a span takes up. -/
def length (s : Span) : Nat := s.stop - s.start

/-- Whether a span takes up no bytes. -/
def isEmpty (s : Span) : Bool := s.start == s.stop

/-- How messages name a place. -/
def display (s : Span) : String :=
  "token " ++ s.index.repr ++ " (bytes " ++ s.start.repr ++ ".." ++ s.stop.repr ++ ")"

end Span

/-- A maximal run of characters without a separator, and where it was found. -/
structure RawToken where
  span : Span
  text : String
  deriving DecidableEq

namespace Source

/-- The characters that stand between tokens. -/
def isSeparator (c : Char) : Bool :=
  c == ' ' || c == '\t' || c == '\n' || c == '\x0c' || c == '\x0d'

/-- The length in bytes of a run of characters. -/
def byteLength : List Char → Nat
  | [] => 0
  | c :: cs => c.utf8Size + byteLength cs

/-- Splits a text that begins at byte `offset`; the next token has the number `index`.  The token
that is open is kept as its first byte and its characters, the last one first. -/
def splitFrom (index offset : Nat) (opened : Option (Nat × List Char)) :
    List Char → List RawToken
  | [] =>
      match opened with
      | none => []
      | some (start, text) => [⟨⟨index, start, offset⟩, String.ofList text.reverse⟩]
  | c :: cs =>
      let next := offset + c.utf8Size
      match isSeparator c, opened with
      | true, some (start, text) =>
          ⟨⟨index, start, offset⟩, String.ofList text.reverse⟩ :: splitFrom (index + 1) next none cs
      | false, none => splitFrom index next (some (offset, [c])) cs
      | false, some (start, text) => splitFrom index next (some (start, c :: text)) cs
      | true, none => splitFrom index next none cs

/-- The raw tokens of a source text. -/
def rawTokens (source : String) : List RawToken := splitFrom 0 0 none source.toList

/-! ## Splitting by whole tokens -/

/-- The part of a text before its first separator. -/
def word (cs : List Char) : List Char := cs.takeWhile (!isSeparator ·)

/-- The part of a text from its first separator on. -/
def afterWord (cs : List Char) : List Char := cs.dropWhile (!isSeparator ·)

theorem length_afterWord_le (cs : List Char) : (afterWord cs).length ≤ cs.length :=
  (List.dropWhile_suffix _).length_le

theorem word_append_afterWord (cs : List Char) : word cs ++ afterWord cs = cs :=
  List.takeWhile_append_dropWhile

/-- The raw tokens of a text that begins at byte `offset`, numbered from `index`. -/
def rawTokensFrom (index offset : Nat) : List Char → List RawToken
  | [] => []
  | c :: cs =>
      if isSeparator c then rawTokensFrom index (offset + c.utf8Size) cs
      else
        let stop := offset + byteLength (c :: word cs)
        ⟨⟨index, offset, stop⟩, String.ofList (c :: word cs)⟩ ::
          rawTokensFrom (index + 1) stop (afterWord cs)
termination_by cs => cs.length
decreasing_by
  · exact Nat.lt_succ_self _
  · exact Nat.lt_succ_of_le (length_afterWord_le cs)

@[simp] theorem rawTokensFrom_nil (index offset : Nat) :
    rawTokensFrom index offset [] = [] := by
  rw [rawTokensFrom]

theorem rawTokensFrom_separator {c : Char} (h : isSeparator c = true)
    (index offset : Nat) (cs : List Char) :
    rawTokensFrom index offset (c :: cs) =
      rawTokensFrom index (offset + c.utf8Size) cs := by
  rw [rawTokensFrom, if_pos h]

theorem rawTokensFrom_token {c : Char} (h : isSeparator c = false)
    (index offset : Nat) (cs : List Char) :
    rawTokensFrom index offset (c :: cs) =
      ⟨⟨index, offset, offset + byteLength (c :: word cs)⟩,
          String.ofList (c :: word cs)⟩ ::
        rawTokensFrom (index + 1) (offset + byteLength (c :: word cs)) (afterWord cs) := by
  rw [rawTokensFrom, if_neg (by simp [h])]

/-- An open token is closed at the next separator or at the end; with no token open, the text is
split by whole tokens. -/
theorem splitFrom_eq (cs : List Char) :
    (∀ index offset, splitFrom index offset none cs = rawTokensFrom index offset cs) ∧
    ∀ index offset start text, splitFrom index offset (some (start, text)) cs =
      ⟨⟨index, start, offset + byteLength (word cs)⟩, String.ofList (text.reverse ++ word cs)⟩ ::
        rawTokensFrom (index + 1) (offset + byteLength (word cs)) (afterWord cs) := by
  induction cs with
  | nil =>
    refine ⟨fun index offset => ?_, fun index offset start text => ?_⟩
    · rw [rawTokensFrom_nil]
      rfl
    · simp [splitFrom, word, afterWord, byteLength]
  | cons c cs ih =>
    obtain ⟨hclosed, hopen⟩ := ih
    cases hc : isSeparator c with
    | true =>
      have hword : word (c :: cs) = [] := by simp [word, hc]
      have hafter : afterWord (c :: cs) = c :: cs := by simp [afterWord, hc]
      refine ⟨fun index offset => ?_, fun index offset start text => ?_⟩
      · simp only [splitFrom, hc, hclosed, rawTokensFrom_separator hc]
      · simp only [splitFrom, hc, hclosed, hword, hafter, rawTokensFrom_separator hc, byteLength,
          Nat.add_zero, List.append_nil]
    | false =>
      have hword : word (c :: cs) = c :: word cs := by simp [word, hc]
      have hafter : afterWord (c :: cs) = afterWord cs := by simp [afterWord, hc]
      refine ⟨fun index offset => ?_, fun index offset start text => ?_⟩
      · simp only [splitFrom, hc, hopen, rawTokensFrom_token hc, byteLength, Nat.add_assoc,
          List.reverse_cons, List.reverse_nil, List.nil_append, List.cons_append]
      · simp only [splitFrom, hc, hopen, hword, hafter, byteLength, Nat.add_assoc,
          List.reverse_cons, List.append_assoc, List.nil_append, List.cons_append]

theorem rawTokens_eq (source : String) : rawTokens source = rawTokensFrom 0 0 source.toList :=
  (splitFrom_eq source.toList).1 0 0

/-! ## Cutting a span out of a text -/

/-- The characters before and after a byte offset, if a character begins or the text ends
there. -/
def cutAt : Nat → List Char → Option (List Char × List Char)
  | 0, cs => some ([], cs)
  | _ + 1, [] => none
  | n + 1, c :: cs =>
      if c.utf8Size ≤ n + 1 then
        (cutAt (n + 1 - c.utf8Size) cs).map fun (before, after) => (c :: before, after)
      else none

/-- The text that a span covers, if the span is one of the text: it does not stop before
it starts, and characters begin, or the text ends, at both of its ends. -/
def text? (source : String) (span : Span) : Option String :=
  if span.stop < span.start then none
  else do
    let (_, rest) ← cutAt span.start source.toList
    let (covered, _) ← cutAt (span.stop - span.start) rest
    return String.ofList covered

/-- Cutting at the end of a run of characters gives that run. -/
theorem cutAt_byteLength_append (before after : List Char) :
    cutAt (byteLength before) (before ++ after) = some (before, after) := by
  induction before with
  | nil => cases after <;> rfl
  | cons c cs ih =>
    have hpos : 0 < c.utf8Size := c.utf8Size_pos
    have hlen : byteLength (c :: cs) = c.utf8Size + byteLength cs := rfl
    obtain ⟨n, hn⟩ : ∃ n, byteLength (c :: cs) = n + 1 :=
      ⟨byteLength (c :: cs) - 1, by omega⟩
    rw [hn, List.cons_append, cutAt, if_pos (by omega)]
    have hrest : n + 1 - c.utf8Size = byteLength cs := by omega
    rw [hrest, ih]
    rfl

end Source

end WireLambda
