import StrictJson.Datum
import StrictJson.Options
import StrictJson.Store

/-!
# Plain data of nodes

The plain datum of a node has a new list or dictionary for each container that is met, and a float
for each number.
-/

namespace StrictJson.Store

/-- Add a container to the heap at hand; the result refers to it as `make` says. -/
def addCell (make : Nat → Datum) (c : Cell) : StateT Heap (Except Failure) Datum :=
  fun h => .ok (make (h.alloc c).1, (h.alloc c).2)

/-- Convert the value of a member; its key becomes plain text. -/
def memberToDatum (convert : NodeId → StateT Heap (Except Failure) Datum) (m : String × NodeId) :
    StateT Heap (Except Failure) (Datum × Datum) := do
  return (Datum.ofString m.1, ← convert m.2)

/-- The datum of a node, with its containers in the heap at hand. `budget` bounds the nesting, and
`path` names the containers around the node. -/
def toDatumWithin (s : Store) : Nat → List NodeId → NodeId → StateT Heap (Except Failure) Datum
  | 0, _, _ => throw .nestingLimit
  | budget + 1, path, id =>
    match s.node id with
    | .null => return .none
    | .boolean b => return .boolean b
    | .number x => return .float x
    | .string t => return .ofString t
    | .array items => do
      let inner ← enter .array path id
      let ds ← items.mapM (toDatumWithin s budget inner)
      addCell .list (.items ds)
    | .object members => do
      let inner ← enter .object path id
      let es ← members.mapM (memberToDatum (toDatumWithin s budget inner))
      addCell .dict (.entries (Datum.dictEntries es))

/-- The plain datum of a node. -/
def toDatum [Platform] (s : Store) (id : NodeId) : Except Failure (Datum × Heap) :=
  toDatumWithin s (nestingLimit + 1) [] id Heap.empty

end StrictJson.Store
