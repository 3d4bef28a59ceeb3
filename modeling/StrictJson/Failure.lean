import StrictJson.Index
import StrictJson.Kind
import StrictJson.Report

/-!
# Failures

The causes for which an operation refuses its work, and the report of each cause. Some causes are
limits or misuse rather than faults of a document or a value, and have no report.
-/

namespace StrictJson

/-- Why an operation failed. `typeName` is the name of the type of a datum that does not fit. -/
inductive Failure where
  /-- The octets of a text are not well-formed UTF-8. -/
  | malformedText
  /-- A text between quotes has surrogates: the first run of them, and where it starts. -/
  | surrogatesInText (position : Nat) (run : List CodePoint)
  /-- No code point has this number. -/
  | codePointOutOfRange (n : Nat)
  /-- A text is not enclosed in quotes. -/
  | notQuoted
  /-- An escape with an unknown marker, or with none. -/
  | invalidEscape (position : Nat)
  /-- An escape whose four hexadecimal digits are not there. -/
  | invalidUnicodeEscape (position : Nat)
  | wrongKind (expected actual : Kind)
  | keyNotFound (key : String)
  | indexOutOfBounds (index : Index) (size : Nat)
  | booleanRequired (typeName : String)
  | numberRequired (typeName : String)
  | textRequired (typeName : String)
  | valueRequired (typeName : String)
  | keyTextRequired (typeName : String)
  | memberKeyRequired (typeName : String)
  | notConvertible (typeName : String)
  | numberOutOfRange (n : Int)
  | numberNotFinite (x : Binary64)
  /-- A container of a tree was reached again from inside itself. -/
  | cyclicTree (kind : Kind)
  /-- A container of plain data was reached again from inside itself. -/
  | cyclicData
  | invalidSerializeOptions
  | tooDeepToSerialize
  | parseFailed (kind : ErrorKind) (message : String) (position : Int)
  /-- Containers nest more deeply than a walk may follow them. -/
  | nestingLimit
  /-- A message would have to show an integer of too many digits. -/
  | integerTextLimit
  /-- A code point was given by a negative number. -/
  | negativeCodePoint
  /-- The receiver's kind has no such operation. -/
  | noSuchOperation
  /-- An index is no whole number. -/
  | indexNotWhole
  /-- What is not a container is asked for its contents. -/
  | notContainer
  /-- An indentation is wider than a text can be. -/
  | indentTooWide
  /-- What is neither a text nor consists of numbers is taken for octets. -/
  | notOctets
  /-- What is taken for an octet is not among its values. -/
  | octetOutOfRange
  /-- There are more octets than a text can have. -/
  | tooManyOctets

namespace Failure

/-- The failure for an integer beyond all doubles. -/
def ofLargeInteger (n : Int) : Failure :=
  if canShow n then .numberOutOfRange n else .integerTextLimit

/-- The failure for an index outside an array. -/
def ofIndex (index : Index) (size : Nat) : Failure :=
  if index.isDisplayable then .indexOutOfBounds index size else .integerTextLimit

/-- What is said about the first run of surrogates in a text. -/
def surrogatesMessage (position : Nat) (run : List CodePoint) : String :=
  let place := String.ofList (Nat.toDigits 10 position)
  let subject := match run with
    | [c] => "character '" ++ String.ofList ('\\' :: 'u' :: Hex.padded 4 c.val) ++ "' in position "
      ++ place
    | _ => "characters in position " ++ place ++ "-"
      ++ String.ofList (Nat.toDigits 10 (position + run.length - 1))
  "'utf-8' codec can't encode " ++ subject ++ ": surrogates not allowed"

/-- The report of a failure; limits and misuse have none. -/
def report? : Failure → Option Report
  | malformedText => some (.ofMessage .invalidUtf8 "Invalid UTF-8 sequence in string" none)
  | surrogatesInText position run =>
    some (.ofMessage .invalidUtf8
      ("Invalid UTF-8 sequence in string: " ++ surrogatesMessage position run) none)
  | codePointOutOfRange n =>
    some (.ofMessage .invalidArgument
      ("Code point out of range: 0x" ++ String.ofList (Nat.toDigits 16 n)) none)
  | notQuoted => some (.ofMessage .invalidArgument "Invalid JSON string format" none)
  | invalidEscape position =>
    some (.ofMessage .invalidEscape "Invalid escape sequence" (some position))
  | invalidUnicodeEscape position =>
    some (.ofMessage .invalidEscape "Invalid Unicode escape sequence" (some position))
  | wrongKind expected actual => some (.wrongKind expected.name actual.name)
  | keyNotFound key => some (.keyNotFound (Displayed.quoted (CodePoint.ofString key)))
  | indexOutOfBounds index size =>
    some (.indexOutOfBounds index.display (String.ofList (Nat.toDigits 10 size)))
  | booleanRequired t =>
    some (.ofMessage .invalidArgument ("Boolean value required, got " ++ t) none)
  | numberRequired t =>
    some (.ofMessage .invalidArgument ("Numeric value required, got " ++ t) none)
  | textRequired t => some (.ofMessage .invalidArgument ("Text value required, got " ++ t) none)
  | valueRequired t => some (.ofMessage .invalidArgument ("JSON value required, got " ++ t) none)
  | keyTextRequired t =>
    some (.ofMessage .invalidArgument ("Object key must be text, got " ++ t) none)
  | memberKeyRequired t =>
    some (.ofMessage .invalidArgument ("Object keys must be strings, got " ++ t) none)
  | notConvertible t =>
    some (.ofMessage .invalidArgument ("Cannot convert " ++ t ++ " to a JSON value") none)
  | numberOutOfRange n =>
    some (.ofMessage .invalidArgument
      ("Number out of range: " ++ String.ofList (integerText n)) none)
  | numberNotFinite x =>
    some (.ofMessage .invalidArgument
      ("Number must be finite, got " ++ String.ofList x.text) none)
  | cyclicTree kind =>
    some (.ofMessage .cyclicValue ("Cyclic value tree: " ++ kind.name ++ " contains itself") none)
  | cyclicData => some (.ofMessage .cyclicValue "Cyclic Python data cannot be converted" none)
  | invalidSerializeOptions =>
    some (.ofMessage .invalidArgument "Invalid serialization options" none)
  | tooDeepToSerialize =>
    some (.ofMessage .serialization "Value tree is nested too deeply to serialize" none)
  | parseFailed kind message position =>
    some (.parseFailed kind message (String.ofList (integerText position)))
  | nestingLimit => none
  | integerTextLimit => none
  | negativeCodePoint => none
  | noSuchOperation => none
  | indexNotWhole => none
  | notContainer => none
  | indentTooWide => none
  | notOctets => none
  | octetOutOfRange => none
  | tooManyOctets => none

end Failure

end StrictJson
