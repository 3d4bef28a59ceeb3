import StrictJson.Kind
import StrictJson.Number.Text
import StrictJson.Text.Displayed

/-!
# Reports of failures

A report is what a caller sees of a failure: the family it belongs to, its kind, its message and,
for failures at a place in a text, the position. Each family has a kind; only the report of an
unwrapped parse failure takes the kind of that failure instead.
-/

namespace StrictJson

/-- The families of failures that a caller can tell apart. -/
inductive Family where
  | general
  | invalidUtf8
  | grammar
  | invalidEscape
  | invalidType
  | keyNotFound
  | indexOutOfBounds
  | invalidArgument
  | cyclicValue
  | serialization
  | parseFailed
deriving DecidableEq

/-- The kind of a family's failures, unless a failure carries its own. -/
def Family.kind : Family → ErrorKind
  | general => .unknownError
  | invalidUtf8 => .invalidUtf8
  | grammar => .syntaxError
  | invalidEscape => .syntaxError
  | invalidType => .invalidType
  | keyNotFound => .keyNotFound
  | indexOutOfBounds => .indexOutOfBounds
  | invalidArgument => .invalidArgument
  | cyclicValue => .invalidArgument
  | serialization => .serializationError
  | parseFailed => .unknownError

/-- Bad escapes are violations of the grammar, too. -/
def Family.isGrammar : Family → Bool
  | grammar => true
  | invalidEscape => true
  | _ => false

/-- What a caller sees of a failure. -/
structure Report where
  family : Family
  kind : ErrorKind
  message : String
  position : Option Int

namespace Report

/-- A report with a message of its own, or with the kind's fixed text if that message is empty. -/
def ofMessage (family : Family) (message : String) (position : Option Int) : Report where
  family := family
  kind := family.kind
  message := if message.isEmpty then family.kind.text else message
  position := position

/-- A value of one kind was used as one of another. -/
def wrongKind (expected actual : String) : Report :=
  ofMessage .invalidType ("Invalid type: expected " ++ expected ++ ", got " ++ actual) none

/-- A strict look-up of a key that is absent, given as it is displayed. -/
def keyNotFound (key : String) : Report :=
  ofMessage .keyNotFound ("Key not found: " ++ key) none

/-- An index outside an array, given with the array's size as they are displayed. -/
def indexOutOfBounds (index size : String) : Report :=
  ofMessage .indexOutOfBounds
    ("Array index " ++ index ++ " out of bounds for size " ++ size) none

/-- A failed parse was asked for its value. The position is given as it is displayed. -/
def parseFailed (kind : ErrorKind) (message position : String) : Report where
  family := .parseFailed
  kind := kind
  message := kind.text ++ " at byte " ++ position ++ ": " ++ message
  position := none

end Report

end StrictJson
