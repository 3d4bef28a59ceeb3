import StrictJson.Datum.Tree
import StrictJson.Document.Parser
import StrictJson.Options.Libraries
import StrictJson.Tree.Printer

/-!
# Documents and data

The operations that take plain data as they come: reading a document that may be no text, and
writing data with options that may be invalid.
-/

namespace StrictJson

variable [Platform] [Libraries]

/-- Read a document given by a datum. -/
def Document.parseDatum (o : ParseOptions) : Datum → Except Rejection Tree
  | .text cs => parse o (.codePoints cs)
  | .octets bs => parse o (.octets bs)
  | d => .error ⟨.notText d.typeName, 0⟩

/-- The settings for writing, given by arguments of a call. Invalid arguments fail as such. -/
def SerializeOptions.forCall (pretty indent : Option Datum) : Except Failure SerializeOptions :=
  match SerializeOptions.ofArguments pretty indent with
  | .ok o => .ok o
  | .error _ => .error .invalidSerializeOptions

/-- The document of a datum. The datum is converted before the options are looked at. -/
def Datum.serialize (h : Heap) (pretty indent : Option Datum) (d : Datum) :
    Except Failure String := do
  let t ← d.toTree h
  let o ← SerializeOptions.forCall pretty indent
  t.serialize o

/-- What reformatting a document shows. -/
structure Reformatted where
  text : String
  /-- Whether reading the text again gives a tree like the first. -/
  isFaithful : Bool
  /-- Whether writing that tree again gives the same text. -/
  isStable : Bool

/-- Write a tree that was read, and read and write it once more. The text is read with the default
settings. -/
def Tree.reformat (o : SerializeOptions) (t : Tree) : Except Failure Reformatted := do
  let text ← t.serialize o
  match Document.parse {} (.ofString text) with
  | .error r => throw r.toFailure
  | .ok again =>
    let textAgain ← again.serialize o
    return ⟨text, again.isLike t, textAgain == text⟩

end StrictJson
