import StrictJson.Failure
import StrictJson.Tree

/-!
# Stores

A store holds mutable values. Each value is a node with an identity; containers name their children,
so a node can be in several containers and a container can be inside itself. Nodes are never
removed.
-/

namespace StrictJson

/-- The identity of a node. -/
abbrev NodeId := Nat

/-- The contents of a node. -/
inductive Node where
  | null
  | boolean (b : Bool)
  | number (x : Binary64)
  | string (s : String)
  | array (items : List NodeId)
  | object (members : List (String × NodeId))

/-- The kind of a node. -/
def Node.kind : Node → Kind
  | null => .null
  | boolean _ => .boolean
  | number _ => .number
  | string _ => .string
  | array _ => .array
  | object _ => .object

/-- The children of a node, in order. -/
def Node.children : Node → List NodeId
  | array items => items
  | object members => members.map (·.2)
  | _ => []

/-- The nodes that exist, in the order in which they were made. -/
structure Store where
  nodes : Array Node

namespace Store

/-- The store without nodes. -/
def empty : Store := ⟨#[]⟩

/-- The number of nodes. -/
def size (s : Store) : Nat := s.nodes.size

/-- The contents of a node. Identities that were never handed out read as null. -/
def node (s : Store) (id : NodeId) : Node :=
  s.nodes[id]?.getD .null

/-- Make a node. -/
def alloc (s : Store) (n : Node) : NodeId × Store :=
  (s.nodes.size, ⟨s.nodes.push n⟩)

/-- Change the contents of a node. -/
def put (s : Store) (id : NodeId) (n : Node) : Store :=
  ⟨s.nodes.setIfInBounds id n⟩

mutual

/-- Make nodes for a tree, a new one for each of its values, the children before their parent. -/
def load : Tree → Store → NodeId × Store
  | .null, s => s.alloc .null
  | .boolean b, s => s.alloc (.boolean b)
  | .number x, s => s.alloc (.number x)
  | .string t, s => s.alloc (.string t)
  | .array items, s =>
    let (ids, s) := loadItems items s
    s.alloc (.array ids)
  | .object members, s =>
    let (ms, s) := loadMembers members s
    s.alloc (.object ms)

/-- Make nodes for items. -/
def loadItems : List Tree → Store → List NodeId × Store
  | [], s => ([], s)
  | t :: r, s =>
    let (id, s) := load t s
    let (ids, s) := loadItems r s
    (id :: ids, s)

/-- Make nodes for the values of members. -/
def loadMembers : List (String × Tree) → Store → List (String × NodeId) × Store
  | [], s => ([], s)
  | (k, t) :: r, s =>
    let (id, s) := load t s
    let (ms, s) := loadMembers r s
    ((k, id) :: ms, s)

end

/-! ## Paths of a walk

A walk over a store keeps the containers that it is inside of, the innermost first. It fails at the
first container that it meets again there; a container that is merely shared is followed each time
it is met.
-/

/-- Enter a container of the given kind, unless it is on the path. The result is the path inside of
it. -/
def enter (kind : Kind) (path : List NodeId) (id : NodeId) : Except Failure (List NodeId) :=
  if path.contains id then .error (.cyclicTree kind) else .ok (id :: path)

end Store

end StrictJson
