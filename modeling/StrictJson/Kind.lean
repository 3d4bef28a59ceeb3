/-!
# Kinds of values and of errors

A value is of one of six kinds, which error messages call by their names. Every failure belongs to
one of eleven kinds. A kind of failure has a short name, which identifies it, and a fixed text,
which is the message of a failure that says nothing more specific.
-/

namespace StrictJson

/-! ## Values -/

/-- The closed set of kinds of JSON values. -/
inductive Kind where
  | null
  | boolean
  | number
  | string
  | array
  | object
deriving DecidableEq

/-- Every kind, once. -/
def Kind.all : List Kind :=
  [null, boolean, number, string, array, object]

/-- The name of a kind. -/
def Kind.name : Kind → String
  | null => "null"
  | boolean => "boolean"
  | number => "number"
  | string => "string"
  | array => "array"
  | object => "object"

/-! ## Errors -/

/-- The classification attached to every failure. -/
inductive ErrorKind where
  | memoryAllocationFailed
  | invalidUtf8
  | syntaxError
  | invalidType
  | keyNotFound
  | indexOutOfBounds
  | invalidArgument
  | parseError
  | serializationError
  | notImplemented
  | unknownError
deriving DecidableEq

namespace ErrorKind

/-- Every kind, once. -/
def all : List ErrorKind :=
  [memoryAllocationFailed, invalidUtf8, syntaxError, invalidType, keyNotFound, indexOutOfBounds,
    invalidArgument, parseError, serializationError, notImplemented, unknownError]

/-- The identifying name of a kind. -/
def name : ErrorKind → String
  | memoryAllocationFailed => "MemoryAllocationFailed"
  | invalidUtf8 => "InvalidUTF8"
  | syntaxError => "SyntaxError"
  | invalidType => "InvalidType"
  | keyNotFound => "KeyNotFound"
  | indexOutOfBounds => "IndexOutOfBounds"
  | invalidArgument => "InvalidArgument"
  | parseError => "ParseError"
  | serializationError => "SerializationError"
  | notImplemented => "NotImplemented"
  | unknownError => "UnknownError"

/-- The fixed text of a kind. -/
def text : ErrorKind → String
  | memoryAllocationFailed => "Memory allocation failed"
  | invalidUtf8 => "Invalid UTF-8 sequence"
  | syntaxError => "JSON syntax error"
  | invalidType => "Invalid type"
  | keyNotFound => "Key not found"
  | indexOutOfBounds => "Index out of bounds"
  | invalidArgument => "Invalid argument"
  | parseError => "Parse error"
  | serializationError => "Serialization error"
  | notImplemented => "Not implemented"
  | unknownError => "Unknown error"

/-- The kind that a name identifies. -/
def ofName? (s : String) : Option ErrorKind :=
  all.find? (·.name == s)

end ErrorKind

end StrictJson
