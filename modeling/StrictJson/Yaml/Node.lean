import StrictJson.Text.CodePoint
import StrictJson.Yaml.Error

/-!
# The nodes of a document

A document is a graph of nodes. A node has a tag and is a scalar, a sequence or a mapping. Nodes are
named by their place in the graph, since aliases let nodes share others and even contain themselves.
-/

namespace StrictJson.Yaml

/-! ## Tags -/

/-- What a node is said to be. -/
inductive Tag where
  | null
  | boolean
  | integer
  | float
  | binary
  | moment
  | text
  | sequence
  | orderedMap
  | pairs
  | mapping
  | set
  /-- A key whose value is merged into the mapping around it. -/
  | merge
  /-- A key whose value stands for the mapping around it. -/
  | default
  | unknown
deriving DecidableEq

/-- What the names of all known tags begin with. -/
def tagStart : String := "tag:yaml.org,2002:"

/-- The known tags and their names. -/
def Tag.names : List (String × Tag) :=
  [("null", null), ("bool", boolean), ("int", integer), ("float", float), ("binary", binary),
    ("timestamp", moment), ("str", text), ("seq", sequence), ("omap", orderedMap),
    ("pairs", pairs), ("map", mapping), ("set", set), ("merge", merge), ("value", default)]

/-- The tag that has a name. -/
def Tag.ofName (name : List Char) : Tag :=
  ((names.find? fun e => (tagStart ++ e.1).toList == name).map (·.2)).getD unknown

/-! ## Nodes -/

/-- The place of a node in its graph. -/
abbrev NodePlace := Nat

/-- The contents of a node. -/
inductive Content where
  | scalar (text : List CodePoint)
  | sequence (items : List NodePlace)
  | mapping (pairs : List (NodePlace × NodePlace))

/-- A node of a document. -/
structure Node where
  tag : Tag
  content : Content

/-- The nodes of a document. -/
structure Graph where
  nodes : Array Node

namespace Graph

/-- No nodes. -/
def empty : Graph := ⟨#[]⟩

/-- The number of nodes. -/
def size (g : Graph) : Nat :=
  g.nodes.size

/-- The node at a place. -/
def node (g : Graph) (p : NodePlace) : Node :=
  g.nodes[p]?.getD ⟨.null, .scalar []⟩

/-- Add a node; the result tells its place. -/
def add (g : Graph) (n : Node) : NodePlace × Graph :=
  (g.nodes.size, ⟨g.nodes.push n⟩)

/-- Give a node other contents. -/
def setContent (g : Graph) (p : NodePlace) (c : Content) : Graph :=
  ⟨g.nodes.setIfInBounds p { g.node p with content := c }⟩

/-- Give a node another tag. -/
def setTag (g : Graph) (p : NodePlace) (t : Tag) : Graph :=
  ⟨g.nodes.setIfInBounds p { g.node p with tag := t }⟩

/-- The pairs of a mapping. -/
def pairs (g : Graph) (p : NodePlace) : List (NodePlace × NodePlace) :=
  match (g.node p).content with
  | .mapping ps => ps
  | _ => []

end Graph

end StrictJson.Yaml
