import StrictJson.Failure
import StrictJson.Options
import StrictJson.Store

/-!
# Equality of nodes

Two nodes are equal when they have the same structure. Numbers may differ by a rounding error, and
members are compared by key. The comparison follows both nodes at once, from left to right, and
stops at the first difference. It keeps the containers it is inside of on either side and fails when
it meets one of them again.
-/

namespace StrictJson.Store

/-- Whether a test holds of all elements; the first that fails it, or has no answer, decides. -/
def allHold {α : Type} (test : α → Except Failure Bool) : List α → Except Failure Bool
  | [] => .ok true
  | a :: r =>
    match test a with
    | .ok true => allHold test r
    | other => other

/-- Enter a pair of containers, unless one of them is on its side's path. -/
def enterPair (kind : Kind) (path otherPath : List NodeId) (id other : NodeId) :
    Except Failure Unit :=
  if path.contains id || otherPath.contains other then .error (.cyclicTree kind) else .ok ()

/-- Whether two nodes are equal. `budget` bounds the nesting, and the paths name the containers
around the nodes. -/
def equalsWithin (s : Store) :
    Nat → List NodeId → List NodeId → NodeId → NodeId → Except Failure Bool
  | 0, _, _, _, _ => .error .nestingLimit
  | budget + 1, path, otherPath, id, other =>
    match s.node id, s.node other with
    | .null, .null => .ok true
    | .boolean b, .boolean c => .ok (b == c)
    | .number x, .number y => .ok (y.isClose x)
    | .string t, .string u => .ok (t == u)
    | .array items, .array others =>
      if items.length != others.length then .ok false
      else
        match enterPair .array path otherPath id other with
        | .error e => .error e
        | .ok () =>
          allHold (fun (p : NodeId × NodeId) =>
            equalsWithin s budget (id :: path) (other :: otherPath) p.1 p.2) (items.zip others)
    | .object members, .object others =>
      if members.length != others.length then .ok false
      else
        match enterPair .object path otherPath id other with
        | .error e => .error e
        | .ok () =>
          allHold (fun (m : String × NodeId) =>
            match Members.get? m.1 others with
            | some counterpart =>
              equalsWithin s budget (id :: path) (other :: otherPath) m.2 counterpart
            | none => .ok false) members
    | _, _ => .ok false

/-- Whether two nodes are equal. -/
def equals [Platform] (s : Store) (id other : NodeId) : Except Failure Bool :=
  equalsWithin s (nestingLimit + 1) [] [] id other

end StrictJson.Store
