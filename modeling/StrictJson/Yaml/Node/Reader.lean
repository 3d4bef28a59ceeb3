import StrictJson.Yaml.Scalar
import StrictJson.Yaml.Scanner.Tokens

/-!
# Reading nodes

The tokens of a document are read into a graph of nodes. Anchors name nodes as soon as they begin,
so that a collection can contain itself. A text has at most one document, and what stands behind it
is looked at only to see that there is no other.
-/

namespace StrictJson.Yaml

/-- What is known while a document is read: the nodes so far, the anchors of those that have one,
and what handles of tags stand for. -/
structure Draft where
  graph : Graph
  anchors : List (List Char × NodePlace)
  handles : List (List Char × List Char)

/-- Reading a document moves the scanner on and adds to the draft. -/
abbrev Compose := StateT Draft Scan

namespace Draft

/-- The draft at the start of a document. -/
def start : Draft := ⟨Graph.empty, [], []⟩

/-! ## Single nodes -/

/-- Add a node, and its anchor if it has one. -/
def addNode (anchor : Option (List Char)) (tag : Tag) (content : Content) :
    Compose NodePlace := do
  let d ← get
  match anchor with
  | none =>
    let (place, graph) := d.graph.add ⟨tag, content⟩
    set { d with graph := graph }
    return place
  | some name =>
    if (d.anchors.lookup name).isSome then malformed .repeatedAnchor
    let (place, graph) := d.graph.add ⟨tag, content⟩
    set { d with graph := graph, anchors := (name, place) :: d.anchors }
    return place

/-- A node that is left out. -/
def addEmpty : Compose NodePlace :=
  addNode none .null (.scalar [])

/-- Give a node its contents. -/
def fill (place : NodePlace) (content : Content) : Compose Unit :=
  modify fun d => { d with graph := d.graph.setContent place content }

/-- The node that an alias stands for. -/
def aliased (name : List Char) : Compose NodePlace := do
  match (← get).anchors.lookup name with
  | some place => return place
  | none => malformed .undefinedAlias

/-! ## Properties -/

/-- Take an anchor, if there is one. -/
def takeAnchor : Compose (Option (List Char)) := do
  match ← Scanner.peekToken with
  | .anchor name =>
    Scanner.dropToken
    return some name
  | _ => return none

/-- Take a tag, if there is one. -/
def takeTag : Compose (Option (Option (List Char) × List Char)) := do
  match ← Scanner.peekToken with
  | .tag handle suffix =>
    Scanner.dropToken
    return some (handle, suffix)
  | _ => return none

/-- The name of a tag, with what its handle stands for. -/
def tagName (handle : Option (List Char)) (suffix : List Char) : Compose (List Char) := do
  match handle with
  | none => return suffix
  | some h =>
    match (← get).handles.lookup h with
    | some start => return start ++ suffix
    | none => malformed .undefinedHandle

/-- The name of a tag that says no more than that there is one. -/
def nonSpecific : List Char := ['!']

/-- Take the anchor and the name of the tag of a node, in either order. -/
def takeProperties : Compose (Option (List Char) × Option (List Char)) := do
  let anchor ← takeAnchor
  let tag ← takeTag
  let anchor ← if anchor.isNone && tag.isSome then takeAnchor else pure anchor
  match tag with
  | some (handle, suffix) => return (anchor, some (← tagName handle suffix))
  | none => return (anchor, none)

/-- The tag of a collection, which is `usual` unless it is given. -/
def collectionTag (usual : Tag) : Option (List Char) → Tag
  | none => usual
  | some name => if name == nonSpecific then usual else Tag.ofName name

/-- The tag of a scalar. If it is not given, it depends on the form of a plain scalar, and of one
whose tag says no more than that there is one. -/
def scalarTag (isPlain : Bool) (text : List CodePoint) : Option (List Char) → Tag
  | none => if isPlain then Scalar.tagOf text else .text
  | some name => if name == nonSpecific then Scalar.tagOf text else Tag.ofName name

/-! ## Collections -/

/-- Where a node is due. -/
inductive Surroundings where
  | flow
  | block
  /-- A pair of a block mapping, where the items of a sequence need no indentation. -/
  | pair

/-- The parts of collections are read by `child`. -/
abbrev Child := Surroundings → Compose NodePlace

/-- Read a node, unless it is left out and one of the tokens that can follow it is there. -/
def readPart (child : Child) (around : Surroundings) (ends : List Token) : Compose NodePlace := do
  if ends.contains (← Scanner.peekToken) then addEmpty else child around

/-- Read a pair from behind the token of its key on. -/
def readPair (child : Child) (around : Surroundings) (ends : List Token) :
    Compose (NodePlace × NodePlace) := do
  let key ← readPart child around ends
  if (← Scanner.peekToken) == .value then
    Scanner.dropToken
    return (key, ← readPart child around ends)
  else return (key, ← addEmpty)

/-- Read the items of a block sequence. If they are not indented, nothing marks their end. -/
def readBlockItems (child : Child) (isIndented : Bool) : Nat → Compose (List NodePlace)
  | 0 => malformed .unexpectedToken
  | fuel + 1 => do
    match ← Scanner.peekToken with
    | .blockEntry =>
      Scanner.dropToken
      let item ← readPart child .block [.blockEntry, .key, .value, .blockEnd]
      return item :: (← readBlockItems child isIndented fuel)
    | t =>
      if isIndented then
        if t != .blockEnd then malformed .unexpectedToken
        Scanner.dropToken
      return []

/-- Read the pairs of a block mapping. -/
def readBlockPairs (child : Child) : Nat → Compose (List (NodePlace × NodePlace))
  | 0 => malformed .unexpectedToken
  | fuel + 1 => do
    match ← Scanner.peekToken with
    | .key =>
      Scanner.dropToken
      let pair ← readPair child .pair [.key, .value, .blockEnd]
      return pair :: (← readBlockPairs child fuel)
    | .blockEnd =>
      Scanner.dropToken
      return []
    | _ => malformed .unexpectedToken

/-- Read the comma before a part of a flow collection that is not the first one. -/
def readSeparator (isFirst : Bool) (close : Token) : Compose Unit := do
  if !isFirst then
    let t ← Scanner.peekToken
    if t == .flowEntry then Scanner.dropToken
    else if t != close then malformed .unexpectedToken

/-- Read the parts of a flow collection up to its close. `part` reads one of them. -/
def readFlowParts {α : Type} (part : Compose α) (close : Token) : Nat → Bool → Compose (List α)
  | 0, _ => malformed .unexpectedToken
  | fuel + 1, isFirst => do
    readSeparator isFirst close
    if (← Scanner.peekToken) == close then
      Scanner.dropToken
      return []
    else
      let a ← part
      return a :: (← readFlowParts part close fuel false)

/-- Read an item of a flow sequence. A pair is an item, too: a mapping of that pair. Its parts are
read by `grandchild`. -/
def readFlowItem (child grandchild : Child) : Compose NodePlace := do
  if (← Scanner.peekToken) == .key then
    Scanner.dropToken
    let place ← addNode none .mapping (.mapping [])
    let pair ← readPair grandchild .flow [.value, .flowEntry, .flowSequenceEnd]
    fill place (.mapping [pair])
    return place
  else child .flow

/-- Read a pair of a flow mapping. A node alone is a pair, too: a key without a value. -/
def readFlowPair (child : Child) : Compose (NodePlace × NodePlace) := do
  if (← Scanner.peekToken) == .key then
    Scanner.dropToken
    readPair child .flow [.value, .flowEntry, .flowMappingEnd]
  else
    let key ← child .flow
    return (key, ← addEmpty)

/-! ## Nodes -/

/-- A bound for the number of tokens to come. -/
def tokenBound : Compose Nat := do
  let s ← (getThe Scanner : Compose Scanner)
  return s.tokens.length + s.outerIndents.length + 4 * s.length + 4

/-- Read a node with the anchor and the tag that were before it. The token is the next one. -/
def readContent (child grandchild : Child) (around : Surroundings) (anchor tag : Option (List Char))
    (t : Token) : Compose NodePlace := do
  let scalar (isPlain : Bool) (text : List CodePoint) : Compose NodePlace :=
    addNode anchor (scalarTag isPlain text tag) (.scalar text)
  let sequence (items : Nat → Compose (List NodePlace)) : Compose NodePlace := do
    let place ← addNode anchor (collectionTag .sequence tag) (.sequence [])
    fill place (.sequence (← items (← tokenBound)))
    return place
  let mapping (pairs : Nat → Compose (List (NodePlace × NodePlace))) : Compose NodePlace := do
    let place ← addNode anchor (collectionTag .mapping tag) (.mapping [])
    fill place (.mapping (← pairs (← tokenBound)))
    return place
  let emptyScalar : Compose NodePlace :=
    if anchor.isSome || tag.isSome then scalar true [] else malformed .unexpectedToken
  match t, around with
  | .blockEntry, .pair => sequence (readBlockItems child false)
  | .plain text, _ =>
    Scanner.dropToken
    scalar true (text.map CodePoint.ofChar)
  | .quoted text, _ =>
    Scanner.dropToken
    scalar false text
  | .flowSequenceStart, _ =>
    Scanner.dropToken
    sequence fun n => readFlowParts (readFlowItem child grandchild) .flowSequenceEnd n true
  | .flowMappingStart, _ =>
    Scanner.dropToken
    mapping fun n => readFlowParts (readFlowPair child) .flowMappingEnd n true
  | .blockSequenceStart, .flow => emptyScalar
  | .blockMappingStart, .flow => emptyScalar
  | .blockSequenceStart, _ =>
    Scanner.dropToken
    sequence (readBlockItems child true)
  | .blockMappingStart, _ =>
    Scanner.dropToken
    mapping (readBlockPairs child)
  | _, _ => emptyScalar

/-- Read a node whose nodes nest no more than `depth` deep. -/
def readNode : Nat → Child
  | 0, _ => throw (.defective .tooDeep)
  | depth + 1, around => do
    match ← Scanner.peekToken with
    | .alias name =>
      Scanner.dropToken
      aliased name
    | _ =>
      let (anchor, tag) ← takeProperties
      let grandchild : Child := match depth with
        | 0 => fun _ => throw (.defective .tooDeep)
        | depth + 1 => readNode depth
      readContent (readNode depth) grandchild around anchor tag (← Scanner.peekToken)

/-- How deep nodes are followed. -/
def mostDepth : Nat := 480

/-! ## Documents -/

/-- Take the directives before a document. The result are the handles that they define. -/
def takeDirectives : Nat → Bool → List (List Char × List Char) →
    Compose (List (List Char × List Char))
  | 0, _, handles => return handles
  | fuel + 1, hasVersion, handles => do
    match ← Scanner.peekToken with
    | .directive (.version major) =>
      Scanner.dropToken
      if hasVersion then malformed .repeatedDirective
      if major != 1 then malformed .unknownVersion
      takeDirectives fuel true handles
    | .directive (.tagHandle handle start) =>
      Scanner.dropToken
      if (handles.lookup handle).isSome then malformed .repeatedDirective
      takeDirectives fuel hasVersion ((handle, start) :: handles)
    | .directive .other =>
      Scanner.dropToken
      takeDirectives fuel hasVersion handles
    | _ => return handles

/-- The handles that need no definition. -/
def usualHandles : List (List Char × List Char) :=
  [("!".toList, "!".toList), ("!!".toList, tagStart.toList)]

/-- Take the directives and the marker at the start of a document. -/
def takeStart : Compose Unit := do
  let handles ← takeDirectives (← tokenBound) false []
  if (← Scanner.peekToken) != .documentStart then malformed .unexpectedToken
  Scanner.dropToken
  modify fun d => { d with handles := handles ++ usualHandles }

/-- Skip markers of the end of a document. -/
def skipEnds : Nat → Compose Unit
  | 0 => pure ()
  | fuel + 1 => do
    if (← Scanner.peekToken) == .documentEnd then
      Scanner.dropToken
      skipEnds fuel

/-- Read the node of a document behind its marker. It can be left out. -/
def readRoot : Compose NodePlace := do
  match ← Scanner.peekToken with
  | .directive _ => addEmpty
  | .documentStart => addEmpty
  | .documentEnd => addEmpty
  | .streamEnd => addEmpty
  | _ => readNode mostDepth .block

/-- Make sure that there is no other document. -/
def readEnd : Compose Unit := do
  skipEnds (← tokenBound)
  if (← Scanner.peekToken) != .streamEnd then
    takeStart
    malformed .severalDocuments

/-- Read a text: its document, if it has one. -/
def readText : Compose (Option NodePlace) := do
  match ← Scanner.peekToken with
  | .streamEnd => return none
  | .directive _ =>
    takeStart
    finish
  | .documentStart =>
    takeStart
    finish
  | _ =>
    modify fun d => { d with handles := usualHandles }
    let root ← readNode mostDepth .block
    readEnd
    return some root
where
  /-- Read on behind the marker of the document. -/
  finish : Compose (Option NodePlace) := do
    let root ← readRoot
    readEnd
    return some root

end Draft

/-- The document of a text, if it has one: its root and the graph. -/
def Graph.ofInput (input : Input) : Except Error (Option NodePlace × Graph) := do
  let ((root, draft), _) ← (Draft.readText.run Draft.start).run (Scanner.start input)
  return (root, draft.graph)

end StrictJson.Yaml
