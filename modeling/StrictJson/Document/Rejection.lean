import StrictJson.Kind
import StrictJson.Text.Digit

/-!
# Rejections

Why a document was rejected, and where. A rejection has a cause and the offset of an octet; the kind
and the message follow from the cause.
-/

namespace StrictJson.Document

/-- What stands at a place of a document. -/
inductive Found where
  | endOfInput
  | octet (b : UInt8)

/-- A visible ASCII character in single quotes, any other octet by its number. -/
def describeOctet (b : UInt8) : String :=
  if 0x20 < b.toNat ∧ b.toNat < 0x7F then String.ofList ['\'', Char.ofNat b.toNat, '\'']
  else "byte 0x" ++ String.ofList (Hex.padded 2 b.toNat)

/-- How a message calls what was found. -/
def Found.describe : Found → String
  | endOfInput => "end of input"
  | octet b => describeOctet b

/-- The words of the grammar. -/
inductive Word where
  | true
  | false
  | null
deriving DecidableEq

/-- The spelling of a word. -/
def Word.spelling : Word → String
  | true => "true"
  | false => "false"
  | null => "null"

/-- The octets of a word. -/
def Word.octets : Word → List UInt8
  | true => [0x74, 0x72, 0x75, 0x65]
  | false => [0x66, 0x61, 0x6C, 0x73, 0x65]
  | null => [0x6E, 0x75, 0x6C, 0x6C]

/-- The ways to violate the grammar. -/
inductive Violation where
  | unexpectedEnd
  | unexpected (b : UInt8)
  | trailing (b : UInt8)
  | itemEnd (found : Found)
  | memberEnd (found : Found)
  | key (found : Found)
  | colon (found : Found)
  | word (w : Word) (found : Found)
  | unterminatedString
  | controlCharacter (b : UInt8)
  | unterminatedEscape
  | invalidEscape
  | invalidUnicodeEscape
  | leadingZero
  | noDigit
  | noFractionDigit
  | noExponentDigit
  | numberOutOfRange
  | tooDeep (maxDepth : Nat)

/-- The message of a violation. -/
def Violation.message : Violation → String
  | unexpectedEnd => "Unexpected end of input"
  | unexpected b => "Unexpected character " ++ describeOctet b
  | trailing b => "Unexpected trailing character " ++ describeOctet b
  | itemEnd found => "Expected ',' or ']' in array but found " ++ found.describe
  | memberEnd found => "Expected ',' or '\x7d' in object but found " ++ found.describe
  | key found => "Expected string key in object but found " ++ found.describe
  | colon found => "Expected ':' but found " ++ found.describe
  | word w found => "Invalid literal, expected '" ++ w.spelling ++ "' but found " ++ found.describe
  | unterminatedString => "Unterminated string"
  | controlCharacter b =>
    "Unescaped control character 0x" ++ String.ofList (Hex.padded 2 b.toNat) ++ " in string"
  | unterminatedEscape => "Unterminated escape sequence"
  | invalidEscape => "Invalid escape sequence"
  | invalidUnicodeEscape => "Invalid Unicode escape sequence"
  | leadingZero => "Leading zeros are not allowed"
  | noDigit => "Invalid number format"
  | noFractionDigit => "Invalid number format - expected digit after decimal point"
  | noExponentDigit => "Invalid number format - expected digit in exponent"
  | numberOutOfRange => "Number out of range"
  | tooDeep maxDepth =>
    "Maximum nesting depth of " ++ String.ofList (Nat.toDigits 10 maxDepth) ++ " exceeded"

/-- The causes for which a document is rejected. -/
inductive Cause where
  | violation (v : Violation)
  /-- A string of the document is not well-formed UTF-8. -/
  | malformedString
  /-- The document is text with surrogates. -/
  | malformedInput
  /-- The document is no text at all but a datum of the type named. -/
  | notText (typeName : String)
  /-- The document nests beyond the nesting limit. -/
  | nestingLimit

/-- The kind of error that a cause amounts to. -/
def Cause.kind : Cause → ErrorKind
  | violation _ => .syntaxError
  | malformedString => .parseError
  | malformedInput => .parseError
  | notText _ => .invalidArgument
  | nestingLimit => .parseError

/-- The message of a cause. -/
def Cause.message : Cause → String
  | violation v => v.message
  | malformedString => "Invalid UTF-8 sequence in string"
  | malformedInput => "Invalid UTF-8 sequence in input text"
  | notText typeName => "JSON input must be text or bytes, got " ++ typeName
  | nestingLimit => "Nesting exceeds the interpreter recursion limit"

/-- Why a document was rejected, and at which offset. -/
structure Rejection where
  cause : Cause
  position : Nat

/-- Reject for a violation of the grammar at an offset. -/
def violate {α : Type} (position : Nat) (v : Violation) : Except Rejection α :=
  .error ⟨.violation v, position⟩

end StrictJson.Document
