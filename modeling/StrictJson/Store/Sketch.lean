import StrictJson.Options
import StrictJson.Store
import StrictJson.Text.Escape

/-!
# Sketches

The sketch of a node is a text that always exists, whether or not the node contains itself: a
container that is met again inside itself is shown as an ellipsis in brackets. Apart from that it is
the compact document of the node.
-/

namespace StrictJson.Store

/-- Texts one after the other, with a comma and a space between them. -/
def joinWithCommas : List (List Char) → List Char
  | [] => []
  | [t] => t
  | t :: r => t ++ ',' :: ' ' :: joinWithCommas r

/-- The sketch of a node. `budget` bounds the nesting, and `path` names the containers around the
node. -/
def sketchWithin (s : Store) : Nat → List NodeId → NodeId → Except Failure (List Char)
  | 0, _, _ => .error .nestingLimit
  | budget + 1, path, id =>
    match s.node id with
    | .null => .ok "null".toList
    | .boolean b => .ok (if b then "true".toList else "false".toList)
    | .number x => .ok x.text
    | .string t => (RawText.ofString t).literal
    | .array items =>
      if path.contains id then .ok "[...]".toList
      else
        (items.mapM (sketchWithin s budget (id :: path))).map fun ts =>
          '[' :: joinWithCommas ts ++ [']']
    | .object members =>
      if path.contains id then .ok "\x7b...\x7d".toList
      else
        let member (m : String × NodeId) : Except Failure (List Char) := do
          let key ← (RawText.ofString m.1).literal
          let t ← sketchWithin s budget (id :: path) m.2
          return key ++ ':' :: ' ' :: t
        (members.mapM member).map fun ts => '\x7b' :: joinWithCommas ts ++ ['\x7d']

/-- The sketch of a node. -/
def sketch [Platform] (s : Store) (id : NodeId) : Except Failure String :=
  (sketchWithin s (nestingLimit + 1) [] id).map String.ofList

/-- The sketch of a node together with its kind. -/
def describe [Platform] (s : Store) (id : NodeId) : Except Failure String :=
  let title := match s.node id with
    | .null => "JsonNull"
    | .boolean _ => "JsonBoolean"
    | .number _ => "JsonNumber"
    | .string _ => "JsonString"
    | .array _ => "JsonArray"
    | .object _ => "JsonObject"
  (s.sketch id).map fun t => title ++ "(" ++ t ++ ")"

end StrictJson.Store
