import WireLambda.Diagnostics
import WireLambda.Token.Wire

/-!
# Lexed sources

Lexing reads every raw token of a source and goes on after one that has no meaning, so
that a user sees all bad tokens at once.  Once `Diagnostics.maxStored` of them were met
the rest of the source is not looked at.

The result, `Lexed`, holds the tokens that were read, each with its place, and the
reports on those that were not.  `Lexed.extend` is what one raw token adds to it.
-/

namespace WireLambda

/-- The code that a decoding error is reported under. -/
def DecodeError.code : DecodeError → ErrorCode
  | .emptyToken => .emptyToken
  | .unhandledIndicator _ => .unhandledIndicator
  | .unrecognizedOperator _ _ => .unrecognizedOperator
  | .malformedBody _ _ => .malformedBody
  | .idOutOfRange _ => .idOutOfRange

/-- The report on a raw token that has no meaning. -/
def DecodeError.report (program : String) (raw : RawToken) (e : DecodeError) : Report :=
  (Report.unlocated program e.code e.message).located raw.span raw.text

/-- A token and where it was read. -/
structure LocatedToken where
  token : Token
  span : Span
  deriving DecidableEq

/-- What lexing makes of a source. -/
structure Lexed where
  tokens : List LocatedToken
  diagnostics : Diagnostics
  deriving DecidableEq

namespace Lexed

/-- Reads raw tokens in order, given the diagnostics so far, and stops before the next
raw token when those are full. -/
def ofRawTokens (program : String) : Diagnostics → List RawToken → Lexed
  | d, [] => ⟨[], d⟩
  | d, raw :: raws =>
      if Diagnostics.maxStored ≤ d.total then ⟨[], d⟩
      else
        match Token.ofWire raw.text with
        | .ok t =>
            let rest := ofRawTokens program d raws
            { rest with tokens := ⟨t, raw.span⟩ :: rest.tokens }
        | .error e => ofRawTokens program (d.push (e.report program raw)) raws

/-- The tokens of a source, and the reports on what are none. -/
def ofSource (program source : String) : Lexed :=
  ofRawTokens program .empty (Source.rawTokens source)

@[simp] theorem ofRawTokens_nil (program : String) (d : Diagnostics) :
    ofRawTokens program d [] = ⟨[], d⟩ := rfl

theorem ofRawTokens_full {program : String} {d : Diagnostics}
    (h : Diagnostics.maxStored ≤ d.total) (raws : List RawToken) :
    ofRawTokens program d raws = ⟨[], d⟩ := by
  cases raws with
  | nil => rfl
  | cons raw raws => rw [ofRawTokens, if_pos h]

theorem ofRawTokens_ok {program : String} {d : Diagnostics} {raw : RawToken} {t : Token}
    (hroom : d.total < Diagnostics.maxStored) (ht : Token.ofWire raw.text = .ok t)
    (raws : List RawToken) :
    ofRawTokens program d (raw :: raws) =
      ⟨⟨t, raw.span⟩ :: (ofRawTokens program d raws).tokens,
        (ofRawTokens program d raws).diagnostics⟩ := by
  rw [ofRawTokens, if_neg (Nat.not_le.2 hroom), ht]

theorem ofRawTokens_error {program : String} {d : Diagnostics} {raw : RawToken}
    {e : DecodeError} (hroom : d.total < Diagnostics.maxStored)
    (he : Token.ofWire raw.text = .error e) (raws : List RawToken) :
    ofRawTokens program d (raw :: raws) =
      ofRawTokens program (d.push (e.report program raw)) raws := by
  rw [ofRawTokens, if_neg (Nat.not_le.2 hroom), he]

end Lexed

end WireLambda
