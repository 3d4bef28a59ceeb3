import StrictJson.Datum
import StrictJson.Store

/-!
# Reading and changing nodes

The operations on single nodes. Each checks its arguments in a fixed order and fails without any
effect, or changes the receiver's own children only. Keys are given as text or as octets, and both
denote the member whose key is that text.
-/

namespace StrictJson

/-- What a caller hands over where a value is due: a node, or something else of the type named. -/
inductive Operand where
  | node (id : NodeId)
  | foreign (typeName : String)

/-- The node that is handed over. -/
def Operand.toNode : Operand → Except Failure NodeId
  | node id => .ok id
  | foreign typeName => .error (.valueRequired typeName)

/-- The place that an index denotes in an array of a size; indices never count from the end. An
index outside is reported together with the size of the array. One that is inside but no whole
number has no place. -/
def Index.offset? (index : Index) (hasEnd : Bool) (size : Nat) : Except Failure (Option Nat) :=
  if index.isOutside hasEnd size then .error (.ofIndex index size)
  else .ok (index.place?.map Int.toNat)

/-- The place that an index has to have. -/
def placeOrFail : Option Nat → Except Failure Nat
  | some n => .ok n
  | none => .error .indexNotWhole

namespace Store

/-! ## Payloads -/

/-- The payload of a boolean. -/
def booleanValue (s : Store) (id : NodeId) : Except Failure Bool :=
  match s.node id with
  | .boolean b => .ok b
  | n => .error (.wrongKind .boolean n.kind)

/-- The payload of a number. -/
def numberValue (s : Store) (id : NodeId) : Except Failure Binary64 :=
  match s.node id with
  | .number x => .ok x
  | n => .error (.wrongKind .number n.kind)

/-- The payload of a string. -/
def stringValue (s : Store) (id : NodeId) : Except Failure String :=
  match s.node id with
  | .string t => .ok t
  | n => .error (.wrongKind .string n.kind)

/-- The items of an array. -/
def arrayValue (s : Store) (id : NodeId) : Except Failure (List NodeId) :=
  match s.node id with
  | .array items => .ok items
  | n => .error (.wrongKind .array n.kind)

/-- The members of an object. -/
def objectValue (s : Store) (id : NodeId) : Except Failure (List (String × NodeId)) :=
  match s.node id with
  | .object members => .ok members
  | n => .error (.wrongKind .object n.kind)

/-- The items of a receiver that has to be an array. -/
def receiverItems (s : Store) (id : NodeId) : Except Failure (List NodeId) :=
  match s.node id with
  | .array items => .ok items
  | _ => .error .noSuchOperation

/-- The members of a receiver that has to be an object. -/
def receiverMembers (s : Store) (id : NodeId) : Except Failure (List (String × NodeId)) :=
  match s.node id with
  | .object members => .ok members
  | _ => .error .noSuchOperation

/-! ## Making containers -/

/-- Make an array of the values handed over. -/
def newArray (s : Store) (operands : List Operand) : Except Failure (NodeId × Store) :=
  (operands.mapM Operand.toNode).map fun ids => s.alloc (.array ids)

/-- Make an object by setting members one after the other. Of each, the value is checked before the
key. -/
def newObject (s : Store) (pairs : List (Datum × Operand)) : Except Failure (NodeId × Store) :=
  let member (p : Datum × Operand) : Except Failure (String × NodeId) := do
    let id ← p.2.toNode
    let key ← p.1.toKey
    return (key, id)
  (pairs.mapM member).map fun ms => s.alloc (.object (Members.ofList ms))

/-! ## Arrays -/

/-- Append a value to an array. -/
def push (s : Store) (id : NodeId) (operand : Operand) : Except Failure Store := do
  let items ← s.receiverItems id
  let child ← operand.toNode
  return s.put id (.array (items ++ [child]))

/-- Insert a value before an index of an array; the size as index appends. The bounds of the index
are checked before the value. -/
def insert (s : Store) (id : NodeId) (index : Index) (operand : Operand) :
    Except Failure Store := do
  let items ← s.receiverItems id
  let place ← index.offset? true items.length
  let child ← operand.toNode
  let n ← placeOrFail place
  return s.put id (.array (items.take n ++ child :: items.drop n))

/-- Insert a value before the index that a datum gives. -/
def insertAt (s : Store) (id : NodeId) (d : Datum) (operand : Operand) : Except Failure Store :=
  match d.toIndex? with
  | some index => s.insert id index operand
  | none => (s.receiverItems id).bind fun _ => .error .indexNotWhole

/-- Remove the item at an index of an array. -/
def remove (s : Store) (id : NodeId) (index : Index) : Except Failure Store := do
  let items ← s.receiverItems id
  let n ← placeOrFail (← index.offset? false items.length)
  return s.put id (.array (items.eraseIdx n))

/-- Remove the item at the index that a datum gives. -/
def removeAt (s : Store) (id : NodeId) (d : Datum) : Except Failure Store :=
  match d.toIndex? with
  | some index => s.remove id index
  | none => (s.receiverItems id).bind fun _ => .error .indexNotWhole

/-- The item at an index of an array. -/
def itemAt (s : Store) (id : NodeId) (index : Index) : Except Failure NodeId := do
  let items ← s.receiverItems id
  let n ← placeOrFail (← index.offset? false items.length)
  match items[n]? with
  | some child => return child
  | none => .error (.ofIndex index items.length)

/-! ## Containers of either kind -/

/-- Remove all children of a container. -/
def clear (s : Store) (id : NodeId) : Except Failure Store :=
  match s.node id with
  | .array _ => .ok (s.put id (.array []))
  | .object _ => .ok (s.put id (.object []))
  | _ => .error .noSuchOperation

/-- The number of children of a container. -/
def childCount (s : Store) (id : NodeId) : Except Failure Nat :=
  match s.node id with
  | .array items => .ok items.length
  | .object members => .ok members.length
  | _ => .error .noSuchOperation

/-! ## Objects -/

/-- Set a member of an object. The value is checked before the key. -/
def setMember (s : Store) (id : NodeId) (key : Datum) (operand : Operand) :
    Except Failure Store := do
  let members ← s.receiverMembers id
  let child ← operand.toNode
  let k ← key.toKey
  return s.put id (.object (Members.set k child members))

/-- The member of a key of an object, or nothing when it is absent. -/
def getMember (s : Store) (id : NodeId) (key : Datum) : Except Failure (Option NodeId) := do
  let members ← s.receiverMembers id
  let k ← key.toKey
  return Members.get? k members

/-- The member of a key of an object, which has to be present. -/
def memberAt (s : Store) (id : NodeId) (key : Datum) : Except Failure NodeId := do
  let members ← s.receiverMembers id
  let k ← key.toKey
  match Members.get? k members with
  | some child => return child
  | none => .error (.keyNotFound k)

/-- The child of a container that a datum denotes: in an object the member of a key, in an array the
item at an index. -/
def childAt (s : Store) (id : NodeId) (d : Datum) : Except Failure NodeId :=
  match s.node id with
  | .object _ => s.memberAt id d
  | .array _ =>
    match d.toIndex? with
    | some index => s.itemAt id index
    | none => .error .indexNotWhole
  | _ => .error .noSuchOperation

/-- Whether a key of an object is present. -/
def hasMember (s : Store) (id : NodeId) (key : Datum) : Except Failure Bool := do
  let members ← s.receiverMembers id
  let k ← key.toKey
  return Members.has k members

/-- Whether a datum is a key of an object. Data that are no text, octets among them, never are. An
array contains no datum, and a scalar is not asked. -/
def containsKey (s : Store) (id : NodeId) (key : Datum) : Except Failure Bool :=
  match s.node id, key with
  | .object members, .text cs => .ok (members.any fun m => CodePoint.ofString m.1 == cs)
  | .object _, _ => .ok false
  | .array _, _ => .ok false
  | _, _ => .error .notContainer

/-- Remove a member of an object; nothing happens when it is absent. -/
def eraseMember (s : Store) (id : NodeId) (key : Datum) : Except Failure Store := do
  let members ← s.receiverMembers id
  let k ← key.toKey
  return s.put id (.object (Members.erase k members))

end Store

end StrictJson
