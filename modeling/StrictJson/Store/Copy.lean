import StrictJson.Options
import StrictJson.Store
import StrictJson.Store.Access

/-!
# Copying nodes

The copy of a node has nodes of its own for all descendants. A shared container is copied once for
each place it is in. Payloads and keys are checked again on their way into the copy.
-/

namespace StrictJson.Store

/-- Make a node in the store at hand. -/
def add (n : Node) : StateT Store (Except Failure) NodeId :=
  fun out => .ok (out.alloc n)

/-- Copy the value of a member; its key is handed on as plain text. -/
def copyMember (copy : NodeId → StateT Store (Except Failure) NodeId) (m : String × NodeId) :
    StateT Store (Except Failure) (Datum × Operand) := do
  return (Datum.ofString m.1, .node (← copy m.2))

/-- Copy a node of `s` and its descendants into the store at hand. `budget` bounds the nesting, and
`path` names the containers around the node. -/
def copyWithin (s : Store) : Nat → List NodeId → NodeId → StateT Store (Except Failure) NodeId
  | 0, _, _ => throw .nestingLimit
  | budget + 1, path, id =>
    match s.node id with
    | .null => add .null
    | .boolean b => add (.boolean b)
    | .number x => do add (.number (← (Datum.float x).toNumber))
    | .string t => do add (.string (← (Datum.ofString t).toText))
    | .array items => do
      let inner ← enter .array path id
      let copies ← items.mapM (copyWithin s budget inner)
      fun out => out.newArray (copies.map .node)
    | .object members => do
      let inner ← enter .object path id
      let copies ← members.mapM (copyMember (copyWithin s budget inner))
      fun out => out.newObject copies

/-- Copy a node and its descendants. -/
def clone [Platform] (s : Store) (id : NodeId) : Except Failure (NodeId × Store) :=
  copyWithin s (nestingLimit + 1) [] id s

end StrictJson.Store
