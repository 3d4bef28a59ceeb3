/-!
# Why a text is not read

Most texts that are not read are malformed: they break the rules of YAML, or of the tags of their
nodes. The others are defective in a way that a reader of YAML does not diagnose.
-/

namespace StrictJson.Yaml

/-- The rules that a text can break. -/
inductive Malformation where
  | unprintable
  | noToken
  | missingColon
  | sequenceNotAllowed
  | keyNotAllowed
  | valueNotAllowed
  | unclosedQuote
  | markerInQuotes
  | unknownEscape
  | badName
  | badTag
  | badDirective
  | badBlockHeader
  | unexpectedToken
  | repeatedDirective
  | unknownVersion
  | undefinedHandle
  | undefinedAlias
  | repeatedAnchor
  | severalDocuments
  | collectionAsKey
  | unknownTag
  | wrongContent
  | notMergeable
  | badBase64
deriving DecidableEq

/-- What is wrong with a text beyond its being malformed. -/
inductive Defect where
  /-- The octets of the text are not UTF-8. -/
  | undecodable
  /-- A scalar or an escape denotes no number or moment, or one that is out of range. -/
  | outOfRange
  /-- A number is larger than a double or a code point can possibly be. -/
  | overflow
  /-- A scalar is tagged as a number and has no digits at all. -/
  | emptyNumber
  /-- A scalar is tagged as a truth value and is no word for one. -/
  | notTruth
  /-- A scalar is tagged as a moment and has not the form of one. -/
  | notMoment
  /-- A mapping is tagged as a moment. -/
  | mappingAsMoment
  /-- Collections nest more deeply than they are followed. -/
  | tooDeep
deriving DecidableEq

/-- Why a text is not read. -/
inductive Error where
  | malformed (m : Malformation)
  | defective (d : Defect)

end StrictJson.Yaml
