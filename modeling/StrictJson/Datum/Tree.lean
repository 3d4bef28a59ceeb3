import StrictJson.Datum
import StrictJson.Options
import StrictJson.Tree

/-!
# Trees from plain data and back

`toTree` converts a datum depth first and reports the first part that does not convert. It keeps the
containers it is inside of, and refuses one that it meets again there; a container that is merely
shared is converted each time it is met. `ofTree` is the other direction.
-/

namespace StrictJson.Datum

/-- The tree of a datum. `budget` bounds the nesting, and `path` names the containers around the
datum. In a dictionary the type of a key is checked before its value is converted, and its text
after. -/
def toTreeWithin (h : Heap) : Nat → List Nat → Datum → Except Failure Tree
  | 0, _, _ => .error .nestingLimit
  | budget + 1, path, d =>
    let itemsOf (cell : Nat) : Except Failure Tree :=
      if path.contains cell then .error .cyclicData
      else (h.items cell).mapM (toTreeWithin h budget (cell :: path)) |>.map .array
    match d with
    | none => .ok .null
    | boolean b => .ok (.boolean b)
    | integer n => (integer n).toNumber.map .number
    | float x => (float x).toNumber.map .number
    | text cs => (text cs).toText.map .string
    | tuple items => (items.mapM (toTreeWithin h budget path)).map .array
    | list cell => itemsOf cell
    | dict cell =>
      if path.contains cell then .error .cyclicData
      else
        let member (e : Datum × Datum) : Except Failure (String × Tree) :=
          match e.1 with
          | text cs => do
            let t ← toTreeWithin h budget (cell :: path) e.2
            let k ← (text cs).toText
            return (k, t)
          | k => .error (.memberKeyRequired k.typeName)
        (h.entries cell).mapM member |>.map fun ms => .object (Members.ofList ms)
    | octets bs => .error (.notConvertible (octets bs).typeName)
    | date d => .error (.notConvertible (date d).typeName)
    | moment m => .error (.notConvertible (moment m).typeName)
    | set cell => .error (.notConvertible (set cell).typeName)

/-- The tree of a datum. -/
def toTree [Platform] (h : Heap) (d : Datum) : Except Failure Tree :=
  toTreeWithin h (nestingLimit + 1) [] d

mutual

/-- The datum of a tree, with new cells for its containers. Numbers become floats. -/
def ofTree : Tree → Heap → Datum × Heap
  | .null, h => (none, h)
  | .boolean b, h => (boolean b, h)
  | .number x, h => (float x, h)
  | .string s, h => (ofString s, h)
  | .array items, h =>
    let (ds, h) := ofItems items h
    let (cell, h) := h.alloc (.items ds)
    (list cell, h)
  | .object members, h =>
    let (es, h) := ofMembers members h
    let (cell, h) := h.alloc (.entries es)
    (dict cell, h)

/-- The data of items. -/
def ofItems : List Tree → Heap → List Datum × Heap
  | [], h => ([], h)
  | t :: r, h =>
    let (d, h) := ofTree t h
    let (ds, h) := ofItems r h
    (d :: ds, h)

/-- The entries of members. -/
def ofMembers : List (String × Tree) → Heap → List (Datum × Datum) × Heap
  | [], h => ([], h)
  | (k, t) :: r, h =>
    let (d, h) := ofTree t h
    let (es, h) := ofMembers r h
    ((ofString k, d) :: es, h)

end

end StrictJson.Datum
