import StrictJson.Kind
import StrictJson.Members
import StrictJson.Number.Binary64

/-!
# Value trees

A tree is a finite, immutable value: what a document denotes, and what a node of a store unfolds to.
Object members keep the order in which they were set.
-/

namespace StrictJson

/-- A JSON value. -/
inductive Tree where
  | null
  | boolean (b : Bool)
  | number (x : Binary64)
  | string (s : String)
  | array (items : List Tree)
  | object (members : List (String × Tree))

namespace Tree

/-- The kind of a tree. -/
def kind : Tree → Kind
  | null => .null
  | boolean _ => .boolean
  | number _ => .number
  | string _ => .string
  | array _ => .array
  | object _ => .object

mutual

/-- The number of containers on the deepest path: none for a scalar, one for an empty container. -/
def depth : Tree → Nat
  | array items => itemsDepth items + 1
  | object members => membersDepth members + 1
  | _ => 0

/-- The greatest depth among items. -/
def itemsDepth : List Tree → Nat
  | [] => 0
  | t :: r => max t.depth (itemsDepth r)

/-- The greatest depth among the values of members. -/
def membersDepth : List (String × Tree) → Nat
  | [] => 0
  | (_, t) :: r => max t.depth (membersDepth r)

end

mutual

/-- Whether two trees are equal up to the order of members and to rounding in numbers. -/
def isLike : Tree → Tree → Bool
  | null, null => true
  | boolean b, boolean c => b == c
  | number x, number y => x.isClose y
  | string s, string t => s == t
  | array items, array others => itemsLike items others
  | object members, object others =>
    members.length == others.length && membersLike members others
  | _, _ => false

/-- Whether items are alike one by one. -/
def itemsLike : List Tree → List Tree → Bool
  | [], [] => true
  | t :: r, u :: s => t.isLike u && itemsLike r s
  | _, _ => false

/-- Whether each member has one alike of the same key among `others`. -/
def membersLike : List (String × Tree) → List (String × Tree) → Bool
  | [], _ => true
  | (k, t) :: r, others =>
    (match Members.get? k others with
      | some u => t.isLike u
      | none => false) && membersLike r others

end

end Tree

end StrictJson
