import WireLambda.Base94.Letters
import WireLambda.Token

/-!
# The written form of a token

A written token is an indicator followed by a body.

* `T`, `F` and `?` say all there is to say; what follows them is ignored.
* `I` is followed by a number and `S` by a text, both in base 94.
* `U` and `B` are followed by the symbol of an operator; what follows that is ignored.
* `L` and `v` are followed by the number of a variable, which has to fit 64 bits.

Reading is therefore more liberal than writing.  `Token.ofWire` accepts leading zero
digits and ignored tails, and `Token.toWire` writes none of them.  Writing, in turn, is
partial: a negative integer has no digits, and a text may leave the alphabet.
`ofWire_toWire` says that whatever is written is read back.
-/

namespace WireLambda

open Base94

/-- Whether an operator takes one operand or two. -/
inductive OperatorArity where
  | unary
  | binary
  deriving DecidableEq

/-- The word for operators of an arity. -/
def OperatorArity.name : OperatorArity → String
  | unary => "unary"
  | binary => "binary"

/-- Why a written token has no meaning. -/
inductive DecodeError where
  | emptyToken
  | unhandledIndicator (c : Char)
  /-- The symbol is no operator of that arity, or there is no symbol at all. -/
  | unrecognizedOperator (arity : OperatorArity) (symbol : Option Char)
  | malformedBody (indicator : Indicator) (source : CodecError)
  /-- The number of a variable is 2^64 or more. -/
  | idOutOfRange (id : Nat)
  deriving DecidableEq

/-- What a reader is told. -/
def DecodeError.message : DecodeError → String
  | .emptyToken => "empty token"
  | .unhandledIndicator c => "unhandled indicator " ++ Text.quoteChar c
  | .unrecognizedOperator arity symbol =>
      "unrecognized " ++ arity.name ++ " operator " ++
        match symbol with
        | some c => "Some(" ++ Text.quoteChar c ++ ")"
        | none => "None"
  | .malformedBody indicator source =>
      "malformed body for indicator " ++ Text.quoteChar indicator.toChar ++ ": " ++
        source.message
  | .idOutOfRange id => "variable id " ++ id.repr ++ " does not fit in 64 bits"

/-- Why a token cannot be written. -/
inductive EncodeError where
  | negativeInteger (n : Int)
  | codec (e : CodecError)
  deriving DecidableEq

/-- What a writer is told. -/
def EncodeError.message : EncodeError → String
  | .negativeInteger n => "negative integer " ++ n.repr ++ " has no wire encoding"
  | .codec e => e.message

namespace Token

/-! ## Reading -/

/-- The number in the body of a token. -/
def readNumber (i : Indicator) (body : String) : Except DecodeError Nat :=
  (decodeInteger body).mapError (.malformedBody i)

/-- The variable in the body of a token. -/
def readVarId (i : Indicator) (body : String) : Except DecodeError VarId :=
  (readNumber i body).bind fun n =>
    if n < UInt64.size then .ok ⟨UInt64.ofNat n⟩ else .error (.idOutOfRange n)

/-- The operator at the head of the body of a token. -/
def readOperator {α : Type} (arity : OperatorArity) (ofSymbol? : Char → Option α)
    (body : List Char) : Except DecodeError α :=
  match body.head?.bind ofSymbol? with
  | some op => .ok op
  | none => .error (.unrecognizedOperator arity body.head?)

/-- The token that an indicator and a body stand for. -/
def ofBody (i : Indicator) (body : List Char) : Except DecodeError Token :=
  match i with
  | .truth => .ok (literal (.bool true))
  | .falsity => .ok (literal (.bool false))
  | .integer => (readNumber i (String.ofList body)).map fun n => literal (.int n)
  | .text =>
      ((decodeString (String.ofList body)).mapError (.malformedBody i)).map
        fun s => literal (.str s)
  | .unary => (readOperator .unary UnaryOp.ofSymbol? body).map unary
  | .binary => (readOperator .binary BinaryOp.ofSymbol? body).map binary
  | .conditional => .ok ite
  | .lambda => (readVarId i (String.ofList body)).map lambda
  | .var => (readVarId i (String.ofList body)).map var

/-- The token that a text stands for. -/
def ofWire (raw : String) : Except DecodeError Token :=
  match raw.toList with
  | [] => .error .emptyToken
  | c :: body =>
      match Indicator.ofChar? c with
      | some i => ofBody i body
      | none => .error (.unhandledIndicator c)

/-! ## Writing -/

/-- The body that says which token of its kind a token is. -/
def wireBody : Token → Except EncodeError String
  | literal (.bool _) | ite => .ok ""
  | literal (.int n) =>
      if n < 0 then .error (.negativeInteger n) else .ok (encodeInteger n.toNat)
  | literal (.str s) => (encodeString s).mapError .codec
  | unary op => .ok (String.singleton op.symbol)
  | binary op => .ok (String.singleton op.symbol)
  | lambda x | var x => .ok (encodeInteger x.index.toNat)

/-- The shortest text that stands for a token. -/
def toWire (t : Token) : Except EncodeError String :=
  t.wireBody.map (String.singleton t.indicator.toChar ++ ·)

/-! ## What is written is read back -/

theorem readVarId_encodeInteger (i : Indicator) (x : VarId) :
    readVarId i (encodeInteger x.index.toNat) = .ok x := by
  have hlt : x.index.toNat < UInt64.size := x.index.toNat_lt_size
  have hread : readNumber i (encodeInteger x.index.toNat) = .ok x.index.toNat := by
    rw [readNumber, decodeInteger_encodeInteger]; rfl
  rw [readVarId, hread]
  simp [Except.bind, hlt]

theorem ofWire_toWire {t : Token} {w : String} (h : t.toWire = .ok w) :
    ofWire w = .ok t := by
  unfold toWire at h
  cases hb : t.wireBody with
  | error e => simp [hb, Except.map] at h
  | ok body =>
    rw [hb] at h
    obtain rfl := Except.ok.inj h
    have hof : ofWire (String.singleton t.indicator.toChar ++ body) =
        ofBody t.indicator body.toList := by
      simp [ofWire, String.toList_append]
    rw [hof]
    cases t with
    | literal s =>
      cases s with
      | bool b => cases b <;> rfl
      | int n =>
        simp only [wireBody] at hb
        split at hb
        · exact absurd hb (by simp)
        · next hn =>
          obtain rfl := Except.ok.inj hb
          have hnat : ((n.toNat : Nat) : Int) = n := Int.toNat_of_nonneg (by omega)
          simp only [ofBody, indicator, readNumber, String.ofList_toList,
            decodeInteger_encodeInteger]
          exact congrArg (fun k => Except.ok (literal (.int k))) hnat
      | str s =>
        simp only [wireBody, encodeString] at hb
        cases hd : textDigits s with
        | error e =>
          rw [hd] at hb
          have hfail : (Except.error (EncodeError.codec e) : Except EncodeError String) =
              .ok body := hb
          exact absurd hfail (by simp)
        | ok ds =>
          rw [hd] at hb
          obtain rfl := Except.ok.inj hb
          obtain rfl := textDigits_eq_ok_iff.1 hd
          simp only [ofBody, indicator, String.ofList_toList, decodeString_spell]
          rfl
    | unary op =>
      obtain rfl := Except.ok.inj hb
      simp [ofBody, indicator, readOperator, Except.map]
    | binary op =>
      obtain rfl := Except.ok.inj hb
      simp [ofBody, indicator, readOperator, Except.map]
    | ite => rfl
    | lambda x =>
      obtain rfl := Except.ok.inj hb
      simp [ofBody, indicator, readVarId_encodeInteger, Except.map]
    | var x =>
      obtain rfl := Except.ok.inj hb
      simp [ofBody, indicator, readVarId_encodeInteger, Except.map]

end Token

end WireLambda
