import StrictJson.Text.CodePoint

/-!
# Tokens of YAML

What the parts of a text are, in order: indicators, scalars, the properties of nodes, directives and
document markers, and the starts and ends of block collections, which only indentation tells.
-/

namespace StrictJson.Yaml

/-- What a directive says. -/
inductive Directive where
  | version (major : Nat)
  /-- What the tags with a handle begin with. -/
  | tagHandle (handle start : List Char)
  | other
deriving DecidableEq

/-- The tokens of a text. -/
inductive Token where
  | streamEnd
  | directive (d : Directive)
  | documentStart
  | documentEnd
  | blockSequenceStart
  | blockMappingStart
  | blockEnd
  | flowSequenceStart
  | flowSequenceEnd
  | flowMappingStart
  | flowMappingEnd
  | blockEntry
  | flowEntry
  | key
  | value
  | alias (name : List Char)
  | anchor (name : List Char)
  /-- A tag written in full, or shortened by a handle. -/
  | tag (handle : Option (List Char)) (suffix : List Char)
  | plain (text : List Char)
  /-- A scalar in quotes, or one that is written as a block. -/
  | quoted (text : List CodePoint)
deriving DecidableEq

end StrictJson.Yaml
