/-!
# Options

The settings of reading and writing, what their fields are declared as, and the nesting limit of the
platform, which no setting can exceed.
-/

namespace StrictJson

/-! ## Settings -/

/-- How many containers may be open at once, unless a setting says otherwise. -/
def defaultMaxDepth : Nat := 256

/-- The number of spaces that each level of nesting adds, unless a setting says otherwise. -/
def defaultIndent : Nat := 2

/-- The settings for reading a document. -/
structure ParseOptions where
  /-- How many containers may be open at once. -/
  maxDepth : Nat := defaultMaxDepth

/-- The settings for writing a document. The indentation matters to pretty output only. -/
structure SerializeOptions where
  pretty : Bool := false
  /-- The number of spaces that each level of nesting adds. -/
  indent : Nat := defaultIndent

/-- The settings for reading and writing together. -/
structure CodecOptions where
  parse : ParseOptions := {}
  serialize : SerializeOptions := {}

/-- What the platform allows that the library runs on. -/
class Platform where
  /-- The deepest nesting of containers that any operation follows. -/
  nestingLimit : Nat

export Platform (nestingLimit)

/-! ## Declarations -/

mutual

/-- What a field is declared as, and what it holds if it is not given. -/
inductive Declaration where
  /-- An integer that is not below a bound. -/
  | integer (least absent : Int)
  | truth (absent : Bool)
  /-- A section with fields of its own, each of which need not be given. -/
  | model (fields : Fields)

/-- The fields of a section, by their names. There may be no others. -/
inductive Fields where
  | nil
  | cons (name : String) (field : Declaration) (rest : Fields)

end

mutual

/-- What a field can hold. -/
def Declaration.Value : Declaration → Type
  | .integer _ _ => Int
  | .truth _ => Bool
  | .model fields => fields.Values

/-- What the fields of a section can hold. -/
def Fields.Values : Fields → Type
  | .nil => Unit
  | .cons _ field rest => field.Value × rest.Values

end

mutual

/-- What a field holds if it is not given. -/
def Declaration.absent : (d : Declaration) → d.Value
  | .integer _ n => n
  | .truth b => b
  | .model fields => fields.absent

/-- What the fields of a section hold if none is given. -/
def Fields.absent : (fs : Fields) → fs.Values
  | .nil => ()
  | .cons _ field rest => (field.absent, rest.absent)

end

/-- The names of fields. -/
def Fields.names : Fields → List String
  | .nil => []
  | .cons name _ rest => name :: rest.names

/-- The fields of the settings for reading. -/
def ParseOptions.fields : Fields :=
  .cons "max_depth" (.integer 1 defaultMaxDepth) .nil

/-- The fields of the settings for writing. -/
def SerializeOptions.fields : Fields :=
  .cons "pretty" (.truth false) (.cons "indent" (.integer 0 defaultIndent) .nil)

/-- The sections of the settings. -/
def CodecOptions.fields : Fields :=
  .cons "parse" (.model ParseOptions.fields)
    (.cons "serialize" (.model SerializeOptions.fields) .nil)

/-- The settings for reading that the fields hold. -/
def ParseOptions.ofValues (v : fields.Values) : ParseOptions where
  maxDepth := Int.toNat v.1

/-- The settings for writing that the fields hold. -/
def SerializeOptions.ofValues (v : fields.Values) : SerializeOptions where
  pretty := v.1
  indent := Int.toNat v.2.1

/-- The settings that the sections hold. -/
def CodecOptions.ofValues (v : fields.Values) : CodecOptions where
  parse := .ofValues v.1
  serialize := .ofValues v.2.1

end StrictJson
