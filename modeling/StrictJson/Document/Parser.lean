import StrictJson.Document.Progress

/-!
# Reading documents

`run` steps the document machine until the document is complete or rejected. `parse` reads a text; a
text with surrogates has no octets to read and is rejected before its first lexeme.
-/

namespace StrictJson.Document

variable [Platform]

/-- Read lexemes until the document is complete or rejected. -/
def run (o : ParseOptions) (s : State) (c : Cursor) : Except Rejection Tree :=
  match _h : step o s c.skipBlanks with
  | .error e => .error e
  | .ok (.done t) => .ok t
  | .ok (.next s' c') => run o s' c'
termination_by c.rest.length
decreasing_by
  exact Nat.lt_of_lt_of_le (length_step_lt _h) c.length_skipBlanks_le

/-- Read a document given by its octets. -/
def parseOctets (o : ParseOptions) (bs : List UInt8) : Except Rejection Tree :=
  run o (.value []) ⟨0, bs⟩

/-- Read a document. Code points are read through their octets, unless there are surrogates among
them, which are rejected before anything is read. -/
def parse (o : ParseOptions) : RawText → Except Rejection Tree
  | .octets bs => parseOctets o bs
  | .codePoints cs =>
    match RawText.surrogates? cs with
    | some (n, _) => .error ⟨.malformedInput, ((cs.take n).flatMap Utf8.encode).length⟩
    | none => parseOctets o (cs.flatMap Utf8.encode)

/-- The failure of asking a rejected document for its value. -/
def Rejection.toFailure (r : Rejection) : Failure :=
  .parseFailed r.cause.kind r.cause.message r.position

/-- What an attempt to read a document left: a value, or what is told of a rejection. Attempts of
which nothing is known hold neither. -/
structure Outcome where
  value : Option Tree
  failure : Option (ErrorKind × String × Int)

namespace Outcome

/-- An attempt counts as successful unless a rejection is known. -/
def isOk (o : Outcome) : Bool :=
  o.failure.isNone

/-- The value, or the failure of not having one. -/
def unwrap (o : Outcome) : Except Failure Tree :=
  match o.failure, o.value with
  | some (kind, message, position), _ => .error (.parseFailed kind message position)
  | none, some t => .ok t
  | none, none => .error (.parseFailed .unknownError "Parse result holds no value" 0)

/-- The outcome of reading a document. -/
def ofExcept : Except Rejection Tree → Outcome
  | .ok t => ⟨some t, none⟩
  | .error r => ⟨none, some (r.cause.kind, r.cause.message, r.position)⟩

end Outcome

end StrictJson.Document
