import StrictJson.Document.Lexeme
import StrictJson.Options
import StrictJson.Tree

/-!
# The document machine

A machine that reads a document one lexeme at a time. Its state holds the containers that are open,
innermost first, and says what must come next. `step` reads a lexeme, or rejects the document at the
first octet from which no document can continue.
-/

namespace StrictJson.Document

variable [Platform]

/-- A container that is open around the place where a value is due. -/
inductive Frame where
  /-- An array and its items so far, the last of them first. -/
  | array (items : List Tree)
  /-- An object, its members so far, and the key whose value is due. -/
  | object (members : List (String × Tree)) (key : String)

/-- What must come next. Each state but the last names the containers that are open around it. -/
inductive State where
  | value (outer : List Frame)
  /-- An array has just been opened: an item or its close. -/
  | arrayStart (outer : List Frame)
  /-- A comma or the close of the array with the given items, the last of them first. -/
  | arrayNext (items : List Tree) (outer : List Frame)
  /-- An object has just been opened: a key or its close. -/
  | objectStart (outer : List Frame)
  | key (members : List (String × Tree)) (outer : List Frame)
  | colon (members : List (String × Tree)) (key : String) (outer : List Frame)
  /-- A comma or the close of the object with the given members. -/
  | objectNext (members : List (String × Tree)) (outer : List Frame)
  /-- Nothing but blanks. -/
  | finish (t : Tree)

/-- What a step leads to. -/
inductive Step where
  | next (s : State) (c : Cursor)
  | done (t : Tree)

/-- Hand a value that is complete to the innermost open container. -/
def deliver (t : Tree) : List Frame → State
  | [] => .finish t
  | .array items :: outer => .arrayNext (t :: items) outer
  | .object members key :: outer => .objectNext (Members.set key t members) outer

/-- Open a container at the cursor, unless too many are open. -/
def openContainer (o : ParseOptions) (outer : List Frame) (c : Cursor) (start : State)
    (r : List UInt8) : Except Rejection Step :=
  if o.maxDepth ≤ outer.length then violate c.position (.tooDeep o.maxDepth)
  else if nestingLimit ≤ outer.length then .error ⟨.nestingLimit, c.position⟩
  else .ok (.next start ⟨c.position + 1, r⟩)

/-- Read the string whose opening quote is at the cursor and whose other octets are `r`. -/
def readString (c : Cursor) (r : List UInt8) : Except Rejection (String × Cursor) :=
  match scanString (c.position + 1) r with
  | .error e => .error e
  | .ok (bs, next) =>
    match Utf8.decode bs with
    | some cs => .ok (String.ofList cs, next)
    | none => .error ⟨.malformedString, c.position⟩

/-- Read a word that stands for a scalar. -/
def readWord (w : Word) (t : Tree) (outer : List Frame) (c : Cursor) : Except Rejection Step :=
  match scanWord w c with
  | .error e => .error e
  | .ok next => .ok (.next (deliver t outer) next)

/-- Read a scalar, or open a container. -/
def readValue (o : ParseOptions) (outer : List Frame) (c : Cursor) : Except Rejection Step :=
  match c.rest with
  | [] => violate c.position .unexpectedEnd
  | b :: r =>
    if b = Literal.quote then
      match readString c r with
      | .error e => .error e
      | .ok (s, next) => .ok (.next (deliver (.string s) outer) next)
    else if b = 0x7B then openContainer o outer c (.objectStart outer) r
    else if b = 0x5B then openContainer o outer c (.arrayStart outer) r
    else if b = 0x74 then readWord .true (.boolean true) outer c
    else if b = 0x66 then readWord .false (.boolean false) outer c
    else if b = 0x6E then readWord .null .null outer c
    else if b = 0x2D ∨ isDigit b = true then
      match scanNumber c with
      | .error e => .error e
      | .ok (x, next) => .ok (.next (deliver (.number x) outer) next)
    else violate c.position (.unexpected b)

/-- Read a key. -/
def readKey (members : List (String × Tree)) (outer : List Frame) (c : Cursor) :
    Except Rejection Step :=
  match c.rest with
  | [] => violate c.position (.key .endOfInput)
  | b :: r =>
    if b = Literal.quote then
      match readString c r with
      | .error e => .error e
      | .ok (k, next) => .ok (.next (.colon members k outer) next)
    else violate c.position (.key (.octet b))

/-- Read the lexeme at the cursor, which is at no blank. -/
def step (o : ParseOptions) : State → Cursor → Except Rejection Step
  | .value outer, c => readValue o outer c
  | .arrayStart outer, c =>
    match c.rest with
    | [] => readValue o (.array [] :: outer) c
    | b :: r =>
      if b = 0x5D then .ok (.next (deliver (.array []) outer) ⟨c.position + 1, r⟩)
      else readValue o (.array [] :: outer) c
  | .arrayNext items outer, c =>
    match c.rest with
    | [] => violate c.position (.itemEnd .endOfInput)
    | b :: r =>
      if b = 0x5D then .ok (.next (deliver (.array items.reverse) outer) ⟨c.position + 1, r⟩)
      else if b = 0x2C then .ok (.next (.value (.array items :: outer)) ⟨c.position + 1, r⟩)
      else violate c.position (.itemEnd (.octet b))
  | .objectStart outer, c =>
    match c.rest with
    | [] => readKey [] outer c
    | b :: r =>
      if b = 0x7D then .ok (.next (deliver (.object []) outer) ⟨c.position + 1, r⟩)
      else readKey [] outer c
  | .key members outer, c => readKey members outer c
  | .colon members k outer, c =>
    match c.rest with
    | [] => violate c.position (.colon .endOfInput)
    | b :: r =>
      if b = 0x3A then .ok (.next (.value (.object members k :: outer)) ⟨c.position + 1, r⟩)
      else violate c.position (.colon (.octet b))
  | .objectNext members outer, c =>
    match c.rest with
    | [] => violate c.position (.memberEnd .endOfInput)
    | b :: r =>
      if b = 0x7D then .ok (.next (deliver (.object members) outer) ⟨c.position + 1, r⟩)
      else if b = 0x2C then .ok (.next (.key members outer) ⟨c.position + 1, r⟩)
      else violate c.position (.memberEnd (.octet b))
  | .finish t, c =>
    match c.rest with
    | [] => .ok (.done t)
    | b :: _ => violate c.position (.trailing b)

end StrictJson.Document
