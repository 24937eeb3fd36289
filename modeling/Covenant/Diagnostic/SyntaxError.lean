import Covenant.Text.Position
import Covenant.Text.Quoted

/-! Why a text is not a contract. -/

namespace Covenant

inductive SyntaxCause where
  | unexpectedToken (text : String)
  | unexpectedEnd
  | unexpectedChar (c : Char)
  | unknownEscape (c : Char)
  | integerRange
  | unknownField (name : String)
  | duplicateField (name : String)
  | secondContract
  | noTypeParameter (name : String)
  | notAssignable
  deriving DecidableEq, Repr

def SyntaxCause.message : SyntaxCause → String
  | unexpectedToken t => "unexpected " ++ Text.quote t
  | unexpectedEnd => "unexpected end of input"
  | unexpectedChar c => "unexpected character " ++ Text.quote c.toString
  | unknownEscape c => "unknown escape sequence '\\" ++ c.toString ++ "'"
  | integerRange => "integer literal out of range"
  | unknownField n => "unknown contract field '" ++ n ++ "'"
  | duplicateField n => "duplicate contract field '" ++ n ++ "'"
  | secondContract => "only one contract block is allowed per source"
  | noTypeParameter n => "'" ++ n ++ "' takes no type parameter"
  | notAssignable => "invalid assignment target"

/-- `token` is the text complained about and `expected` what could have stood there instead. -/
structure SyntaxError where
  cause : SyntaxCause
  pos : Pos
  token : Option String
  expected : List String
  deriving DecidableEq, Repr

def SyntaxError.alternatives (e : SyntaxError) : List String :=
  (e.expected.mergeSort (· ≤ ·)).eraseReps

def SyntaxError.text (e : SyntaxError) : String :=
  e.pos.text ++ ": " ++ e.cause.message ++
    (if e.expected.isEmpty then ""
     else " (expected one of: " ++ ", ".intercalate e.alternatives ++ ")")

end Covenant
