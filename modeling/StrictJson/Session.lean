import StrictJson.Codec
import StrictJson.Store.Conversion
import StrictJson.Store.Copy
import StrictJson.Store.Equality
import StrictJson.Store.Sketch
import StrictJson.Store.Writer

/-!
# Sessions

A session is a store together with variables that refer to its nodes. A program runs action by
action: an action that fails leaves the session as it was, and the program goes on.
-/

namespace StrictJson

/-! ## Actions and results -/

/-- What a variable refers to. -/
inductive Binding where
  | value (id : NodeId)
  /-- The items that an array had when they were asked for. -/
  | snapshot (items : List NodeId)
  /-- The members of an object, whatever they are when the view is read. -/
  | view (id : NodeId)
  /-- The items that an iterator has not yet given out. -/
  | items (rest : List NodeId)
  /-- The keys that an iterator has not yet given out. -/
  | keys (rest : List String)

/-- A store and the variables that refer to it. -/
structure Session where
  store : Store
  bindings : List (String × Binding)

/-- Why an action failed. -/
inductive ActionFailure where
  | failure (f : Failure)
  /-- The options of an action are invalid. -/
  | invalidOptions (complaints : List Complaint)
  /-- A variable is not bound. -/
  | unbound
  /-- The next item is asked of what is no iterator. -/
  | notIterator
  /-- A key of members contains what can change. -/
  | unusableKey

/-- A value that an action is given: a variable, or a plain datum of the type named. -/
inductive Argument where
  | variable (name : String)
  | foreign (typeName : String)

/-- How `nest` wraps a value. -/
inductive Wrapping where
  | array
  | object (key : String)

/-- The actions on values. Those that make or find a value bind it to a variable on request. -/
inductive Action where
  | makeNull
  | makeBoolean (d : Datum)
  | makeNumber (d : Datum)
  | makeString (d : Datum)
  | makeArray (items : List Argument)
  | makeObject (members : List (Datum × Argument))
  | parse (text : Datum) (maxDepth : Option Datum)
  | fromData (h : Heap) (d : Datum)
  | nest (w : Wrapping) (depth : Nat) (of : String)
  | kind (on : String)
  | booleanValue (on : String)
  | numberValue (on : String)
  | stringValue (on : String)
  | arrayValue (on : String)
  | objectValue (on : String)
  | readArray (on : String)
  | readObject (on : String)
  | push (on : String) (value : Argument)
  | insert (on : String) (index : Datum) (value : Argument)
  | remove (on : String) (index : Datum)
  | clear (on : String)
  | childAt (on : String) (place : Datum)
  | size (on : String)
  | set (on : String) (key : Datum) (value : Argument)
  | get (on : String) (key : Datum)
  | has (on : String) (key : Datum)
  | contains (on : String) (key : Datum)
  | erase (on : String) (key : Datum)
  | keys (on : String)
  | members (on : String)
  | iterate (on : String)
  | next (on : String)
  | equals (on other : String)
  | same (on other : String)
  | clone (on : String)
  | sketch (on : String)
  | describe (on : String)
  | serialize (on : String) (pretty indent : Option Datum)
  | toData (on : String)

/-- What an action gives. -/
inductive Result where
  /-- A value that was made or found. -/
  | value (id : NodeId)
  | absent
  /-- The value that was changed. -/
  | changed (id : NodeId)
  | done
  | kind (k : Kind)
  | boolean (b : Bool)
  | number (x : Binary64)
  | text (s : String)
  | items (ids : List NodeId)
  | members (ms : List (String × NodeId))
  | size (n : Nat)
  | keys (ks : List String)
  | nextItem (id : Option NodeId)
  | nextKey (k : Option String)
  | datum (d : Datum) (h : Heap)

namespace Session

variable [Platform] [Libraries]

/-! ## Variables -/

/-- A session without nodes and variables. -/
def empty : Session := ⟨Store.empty, []⟩

/-- Bind a variable, if there is one to bind. -/
def bind (s : Session) (target : Option String) (b : Binding) : Session :=
  match target with
  | none => s
  | some name => { s with bindings := Members.set name b s.bindings }

/-- What a variable refers to. -/
def lookup (s : Session) (name : String) : Except ActionFailure Binding :=
  match Members.get? name s.bindings with
  | some b => .ok b
  | none => .error .unbound

/-- The node that a variable refers to. What else a variable can refer to has none of the operations
of nodes. -/
def nodeOf (s : Session) (name : String) : Except ActionFailure NodeId := do
  match ← s.lookup name with
  | .value id => return id
  | _ => throw (.failure .noSuchOperation)

/-- What a variable refers to, as an operand of the store. -/
def operandOfBinding : Binding → Operand
  | .value id => .node id
  | .snapshot _ => .foreign "tuple"
  | .view _ => .foreign "mappingproxy"
  | .items _ => .foreign "tuple_iterator"
  | .keys _ => .foreign "list_iterator"

/-- A value given to an action, as an operand of the store. -/
def operandOf (s : Session) : Argument → Except ActionFailure Operand
  | .variable name => (s.lookup name).map operandOfBinding
  | .foreign typeName => .ok (.foreign typeName)

/-- The failure of an operation of the store, as a failure of the action. -/
def lift {α : Type} (x : Except Failure α) : Except ActionFailure α :=
  x.mapError .failure

/-! ## Performing actions -/

/-- Keep a node that was made or found. -/
def give (s : Session) (target : Option String) (id : NodeId) : Session × Result :=
  (s.bind target (.value id), .value id)

/-- Make a node for a scalar. -/
def make (s : Session) (target : Option String) (n : Node) : Session × Result :=
  let (id, store) := s.store.alloc n
  { s with store := store }.give target id

/-- Make the nodes of a tree. -/
def makeTree (s : Session) (target : Option String) (t : Tree) : Session × Result :=
  let (id, store) := Store.load t s.store
  { s with store := store }.give target id

/-- Wrap a node in containers of one child. -/
def wrap (w : Wrapping) : Nat → NodeId → Store → NodeId × Store
  | 0, id, store => (id, store)
  | n + 1, id, store =>
    let (outer, store) := store.alloc (match w with
      | .array => .array [id]
      | .object k => .object [(k, id)])
    wrap w n outer store

/-- Perform an action. `target` is the variable to bind, if any. -/
def perform (s : Session) (target : Option String) :
    Action → Except ActionFailure (Session × Result)
  | .makeNull => .ok (s.make target .null)
  | .makeBoolean d => do return s.make target (.boolean (← lift d.toBoolean))
  | .makeNumber d => do return s.make target (.number (← lift d.toNumber))
  | .makeString d => do return s.make target (.string (← lift d.toText))
  | .makeArray items => do
    let (id, store) ← lift (s.store.newArray (← items.mapM s.operandOf))
    return { s with store := store }.give target id
  | .makeObject members => do
    let member (m : Datum × Argument) : Except ActionFailure (Datum × Operand) := do
      let operand ← s.operandOf m.2
      if m.1.isKey then return (m.1, operand) else throw .unusableKey
    let (id, store) ← lift (s.store.newObject (Datum.dictEntries (← members.mapM member)))
    return { s with store := store }.give target id
  | .parse text maxDepth =>
    match ParseOptions.ofArguments maxDepth with
    | .error cs => .error (.invalidOptions cs)
    | .ok o =>
      match Document.parseDatum o text with
      | .error r => .error (.failure r.toFailure)
      | .ok t => .ok (s.makeTree target t)
  | .fromData h d => do return s.makeTree target (← lift (d.toTree h))
  | .nest w depth of => do
    let (id, store) := wrap w depth (← s.nodeOf of) s.store
    return ({ s with store := store }.bind target (.value id), .done)
  | .kind on => do return (s, .kind (s.store.node (← s.nodeOf on)).kind)
  | .booleanValue on => do return (s, .boolean (← lift (s.store.booleanValue (← s.nodeOf on))))
  | .numberValue on => do return (s, .number (← lift (s.store.numberValue (← s.nodeOf on))))
  | .stringValue on => do return (s, .text (← lift (s.store.stringValue (← s.nodeOf on))))
  | .arrayValue on => do
    let items ← lift (s.store.arrayValue (← s.nodeOf on))
    return (s.bind target (.snapshot items), .items items)
  | .objectValue on => do
    let id ← s.nodeOf on
    let members ← lift (s.store.objectValue id)
    return (s.bind target (.view id), .members members)
  | .readArray on => do
    match ← s.lookup on with
    | .snapshot items => return (s, .items items)
    | _ => throw (.failure .noSuchOperation)
  | .readObject on => do
    match ← s.lookup on with
    | .view id => return (s, .members (← lift (s.store.objectValue id)))
    | _ => throw (.failure .noSuchOperation)
  | .push on value => do
    let id ← s.nodeOf on
    let store ← lift (s.store.push id (← s.operandOf value))
    return ({ s with store := store }, .changed id)
  | .insert on index value => do
    let id ← s.nodeOf on
    let operand ← s.operandOf value
    let store ← lift (s.store.insertAt id index operand)
    return ({ s with store := store }, .changed id)
  | .remove on index => do
    let id ← s.nodeOf on
    let store ← lift (s.store.removeAt id index)
    return ({ s with store := store }, .changed id)
  | .clear on => do
    let id ← s.nodeOf on
    let store ← lift (s.store.clear id)
    return ({ s with store := store }, .changed id)
  | .childAt on place => do
    return s.give target (← lift (s.store.childAt (← s.nodeOf on) place))
  | .size on => do return (s, .size (← lift (s.store.childCount (← s.nodeOf on))))
  | .set on key value => do
    let id ← s.nodeOf on
    let store ← lift (s.store.setMember id key (← s.operandOf value))
    return ({ s with store := store }, .changed id)
  | .get on key => do
    match ← lift (s.store.getMember (← s.nodeOf on) key) with
    | some id => return s.give target id
    | none => return (s, .absent)
  | .has on key => do return (s, .boolean (← lift (s.store.hasMember (← s.nodeOf on) key)))
  | .contains on key => do return (s, .boolean (← lift (s.store.containsKey (← s.nodeOf on) key)))
  | .erase on key => do
    let id ← s.nodeOf on
    let store ← lift (s.store.eraseMember id key)
    return ({ s with store := store }, .changed id)
  | .keys on => do
    return (s, .keys (Members.keys (← lift (s.store.receiverMembers (← s.nodeOf on)))))
  | .members on => do return (s, .members (← lift (s.store.receiverMembers (← s.nodeOf on))))
  | .iterate on => do
    match s.store.node (← s.nodeOf on) with
    | .array items => return (s.bind target (.items items), .done)
    | .object members => return (s.bind target (.keys (Members.keys members)), .done)
    | _ => throw (.failure .notContainer)
  | .next on => do
    match ← s.lookup on with
    | .items [] => return (s, .nextItem none)
    | .items (id :: rest) => return (s.bind (some on) (.items rest), .nextItem (some id))
    | .keys [] => return (s, .nextKey none)
    | .keys (k :: rest) => return (s.bind (some on) (.keys rest), .nextKey (some k))
    | _ => throw .notIterator
  | .equals on other => do
    let id ← s.nodeOf on
    return (s, .boolean (← lift (s.store.equals id (← s.nodeOf other))))
  | .same on other => do
    let id ← s.nodeOf on
    return (s, .boolean (id == (← s.nodeOf other)))
  | .clone on => do
    let (id, store) ← lift (s.store.clone (← s.nodeOf on))
    return ({ s with store := store }.bind target (.value id), .done)
  | .sketch on => do return (s, .text (← lift (s.store.sketch (← s.nodeOf on))))
  | .describe on => do return (s, .text (← lift (s.store.describe (← s.nodeOf on))))
  | .serialize on pretty indent => do
    let id ← s.nodeOf on
    let o ← lift (SerializeOptions.forCall pretty indent)
    return (s, .text (← lift (s.store.serialize o id)))
  | .toData on => do
    let (d, h) ← lift (s.store.toDatum (← s.nodeOf on))
    return (s, .datum d h)

/-- Perform an action of a program. A failure changes nothing. -/
def step (s : Session) (target : Option String) (a : Action) :
    Session × Except ActionFailure Result :=
  match s.perform target a with
  | .ok (s', r) => (s', .ok r)
  | .error e => (s, .error e)

end Session

end StrictJson
