import StrictJson.Datum
import StrictJson.Yaml.Merge
import StrictJson.Yaml.Node.Reader

/-!
# The data of a document

Every node stands for a datum, a shared node for a shared one. Scalars become data at once.
Collections get a cell at once and their contents later, in the order in which they were met, so
that they can contain themselves.
-/

namespace StrictJson.Yaml

/-- What has been made of the nodes of a document: the graph, in which merges are resolved step by
step, the data of the nodes met so far, and the collections that have no contents yet. -/
structure Building where
  graph : Graph
  heap : Heap
  made : Array (Option Datum)
  waiting : List NodePlace

/-- Making data changes the state or fails. -/
abbrev Build := StateT Building (Except Error)

namespace Building

/-- Before anything is made of a document. -/
def start (g : Graph) : Building := ⟨g, Heap.empty, Array.replicate g.size none, []⟩

/-- Fail because a rule is broken. -/
def reject {α : Type} (m : Malformation) : Build α :=
  throw (.malformed m)

/-- The node at a place. -/
def nodeAt (p : NodePlace) : Build Node := do
  return (← get).graph.node p

/-! ## Scalars -/

/-- The text of a node, which is that of its default if it is a mapping. Defaults that go round in a
circle have no end. -/
def textOf : Nat → NodePlace → Build (List CodePoint)
  | 0, _ => throw (.defective .tooDeep)
  | fuel + 1, p => do
    match (← nodeAt p).content with
    | .scalar text => return text
    | .sequence _ => reject .wrongContent
    | .mapping pairs =>
      let g := (← get).graph
      match pairs.find? fun q => (g.node q.1).tag = .default with
      | some (_, value) => textOf fuel value
      | none => reject .wrongContent

/-- The text of a node. -/
def text (p : NodePlace) : Build (List CodePoint) := do
  textOf ((← get).graph.size + 1) p

/-- What a scalar denotes, or its defect. -/
def denoted {α : Type} (x : Except Defect α) : Build α :=
  match x with
  | .ok a => return a
  | .error d => throw (.defective d)

/-- The date or the moment of a node, which must not be a mapping. -/
def dateOrMoment (p : NodePlace) : Build Datum := do
  let cs ← text p
  match (← nodeAt p).content with
  | .mapping _ => throw (.defective .mappingAsMoment)
  | _ =>
    match ← denoted (Scalar.dateOrMoment cs) with
    | .inl d => return .date d
    | .inr m => return .moment m

/-- The octets of a node. -/
def binary (p : NodePlace) : Build Datum := do
  match Scalar.binary (← text p) with
  | .ok bs => return .octets bs
  | .error m => reject m

/-! ## Data -/

/-- Give a collection a cell, and let it wait for its contents. -/
def await (p : NodePlace) (make : Nat → Datum) (c : Cell) : Build Datum := do
  let b ← get
  let (cell, heap) := b.heap.alloc c
  set { b with heap := heap, waiting := b.waiting ++ [p] }
  return make cell

/-- Make the datum of a node. -/
def make (p : NodePlace) : Build Datum := do
  match (← nodeAt p).tag with
  | .null => do
    let _ ← text p
    return .none
  | .boolean => return .boolean (← denoted (Scalar.boolean (← text p)))
  | .integer => return .integer (← denoted (Scalar.integer (← text p)))
  | .float => return .float (← denoted (Scalar.float (← text p)))
  | .binary => binary p
  | .moment => dateOrMoment p
  | .text => return .text (← text p)
  | .sequence => await p .list (.items [])
  | .orderedMap => await p .list (.items [])
  | .pairs => await p .list (.items [])
  | .set => await p .set (.items [])
  | .mapping => await p .dict (.entries [])
  | .merge => reject .unknownTag
  | .default => reject .unknownTag
  | .unknown => reject .unknownTag

/-- The datum of a node, which is made only once. -/
def datum (p : NodePlace) : Build Datum := do
  match (← get).made[p]?.join with
  | some d => return d
  | none =>
    let d ← make p
    modify fun b => { b with made := b.made.setIfInBounds p (some d) }
    return d

/-! ## Contents -/

/-- A key, and what tells it apart if it is no number: its node, or nothing if it is written with
the word for no number. -/
structure Key where
  datum : Datum
  identity : Option NodePlace

/-- Whether two keys are one and the same. -/
def Key.isSame (k l : Key) : Bool :=
  k.datum.isSameKey l.datum
    || (match k.datum, l.datum with
      | .float x, .float y => x.isNaN && y.isNaN && k.identity == l.identity
      | _, _ => false)

/-- The key that a node gives. -/
def keyOf (p : NodePlace) : Build Key := do
  let d ← datum p
  if !d.isKey then reject .collectionAsKey
  match (← nodeAt p).content with
  | .scalar cs => return ⟨d, if Scalar.isNotANumber cs then none else some p⟩
  | _ => return ⟨d, some p⟩

/-- The keys and values of a mapping. Of equal keys the first keeps its place, and the last one's
value counts. -/
def entriesOf (p : NodePlace) : Build (List (Datum × Datum)) := do
  match (← nodeAt p).content with
  | .mapping _ =>
    let b ← get
    match b.graph.resolveMerges p with
    | .error m => reject m
    | .ok g =>
      set { b with graph := g }
      let pairs ← (g.pairs p).mapM fun (key, value) => do return (← keyOf key, ← datum value)
      let entries := pairs.foldl (fun es e => Members.setBy Key.isSame e.1 e.2 es) []
      return entries.map fun e => (e.1.datum, e.2)
  | _ => reject .wrongContent

/-- The pair of data that a mapping of one pair gives. -/
def pairOf (p : NodePlace) : Build Datum := do
  match (← nodeAt p).content with
  | .mapping [(key, value)] => return .tuple [← datum key, ← datum value]
  | _ => reject .wrongContent

/-- The items of a sequence, of which each is made by `item`. -/
def itemsOf (item : NodePlace → Build Datum) (p : NodePlace) : Build (List Datum) := do
  match (← nodeAt p).content with
  | .sequence items => items.mapM item
  | _ => reject .wrongContent

/-- The contents of a collection. -/
def contents (p : NodePlace) : Build Cell := do
  match (← nodeAt p).tag with
  | .orderedMap => return .items (← itemsOf pairOf p)
  | .pairs => return .items (← itemsOf pairOf p)
  | .set => return .items ((← entriesOf p).map (·.1))
  | .mapping => return .entries (← entriesOf p)
  | _ => return .items (← itemsOf datum p)

/-- Fill a collection. -/
def fill (p : NodePlace) : Build Unit := do
  let c ← contents p
  match (← get).made[p]?.join with
  | some (.list cell) => modify fun b => { b with heap := b.heap.put cell c }
  | some (.set cell) => modify fun b => { b with heap := b.heap.put cell c }
  | some (.dict cell) => modify fun b => { b with heap := b.heap.put cell c }
  | _ => pure ()

/-- Fill the collections that wait. Each waits once, so the number of nodes bounds theirs. -/
def fillWaiting : Nat → Build Unit
  | 0 => pure ()
  | fuel + 1 => do
    match (← get).waiting with
    | [] => pure ()
    | p :: r =>
      modify fun b => { b with waiting := r }
      fill p
      fillWaiting fuel

/-- The datum of a root with all that it contains. -/
def complete (root : NodePlace) : Build Datum := do
  let d ← datum root
  fillWaiting ((← get).graph.size + 1)
  return d

end Building

/-- Read the datum of a text, and the containers in it. A text without a document gives none. -/
def load (input : Input) : Except Error (Datum × Heap) := do
  let (root, g) ← Graph.ofInput input
  match root with
  | none => return (.none, Heap.empty)
  | some p =>
    let (d, b) ← ((Building.complete p).run (Building.start g))
    return (d, b.heap)

end StrictJson.Yaml
