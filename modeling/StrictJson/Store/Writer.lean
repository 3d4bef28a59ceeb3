import StrictJson.Store
import StrictJson.Tree.Printer

/-!
# Writing nodes

The document of a node is written while the node is followed. Empty containers have nothing to
follow and are written at once.
-/

namespace StrictJson.Store

/-- Write an item on a line of its own, if there are lines. -/
def writeItem (o : SerializeOptions) (width : Nat) (write : NodeId → Except Failure (List Char))
    (child : NodeId) : Except Failure (List Char) := do
  return o.lineBreak width ++ (← write child)

/-- Write a member on a line of its own, if there are lines. -/
def writeMember (o : SerializeOptions) (width : Nat) (write : NodeId → Except Failure (List Char))
    (m : String × NodeId) : Except Failure (List Char) := do
  let key ← (RawText.ofString m.1).literal
  return o.lineBreak width ++ key ++ o.keySeparator ++ (← write m.2)

/-- Put separators between the texts of children, and brackets around them. -/
def enclose (o : SerializeOptions) (width : Nat) (opening closing : Char) :
    List (List Char) → List Char
  | [] => [opening, closing]
  | t :: ts => opening :: (t ++ ts.flatMap (o.separator ++ ·) ++ o.lineBreak width) ++ [closing]

/-- Enter a container that has children, which are going to be written. An indentation that is too
wide is noticed at the first child. -/
def enterToWrite (o : SerializeOptions) (kind : Kind) (path : List NodeId) (id : NodeId) :
    Except Failure (List NodeId) := do
  let inner ← enter kind path id
  if o.isTooWide then throw .indentTooWide else return inner

/-- The text of a node whose own line is indented by `width`. `budget` bounds the nesting, and
`path` names the containers around the node. -/
def writeWithin (s : Store) (o : SerializeOptions) :
    Nat → List NodeId → Nat → NodeId → Except Failure (List Char)
  | 0, _, _, _ => .error .nestingLimit
  | budget + 1, path, width, id =>
    match s.node id with
    | .null => .ok "null".toList
    | .boolean b => .ok (if b then "true".toList else "false".toList)
    | .number x => .ok x.text
    | .string t => (RawText.ofString t).literal
    | .array [] => .ok (enclose o width '[' ']' [])
    | .array items => do
      let inner ← enterToWrite o .array path id
      let inside := width + o.indent
      let ts ← items.mapM (writeItem o inside (writeWithin s o budget inner inside))
      return enclose o width '[' ']' ts
    | .object [] => .ok (enclose o width '{' '}' [])
    | .object members => do
      let inner ← enterToWrite o .object path id
      let inside := width + o.indent
      let ts ← members.mapM (writeMember o inside (writeWithin s o budget inner inside))
      return enclose o width '{' '}' ts

/-- The document that denotes a node. -/
def serialize [Platform] (s : Store) (o : SerializeOptions) (id : NodeId) : Except Failure String :=
  match writeWithin s o (nestingLimit + 1) [] 0 id with
  | .ok cs => .ok (String.ofList cs)
  | .error .nestingLimit => .error .tooDeepToSerialize
  | .error e => .error e

end StrictJson.Store
