import StrictJson.Failure
import StrictJson.Options
import StrictJson.Text.Escape
import StrictJson.Tree

/-!
# Writing trees

Compact output stands on one line, with a space after each comma and colon. Pretty output starts a
line for each item, member and closing bracket of a container that is not empty, and puts spaces on
both sides of the colon. Only line breaks, blanks and these separators depend on the options.
-/

namespace StrictJson

namespace SerializeOptions

/-- What comes before an item, a member or a closing bracket at the given indentation. -/
def lineBreak (o : SerializeOptions) (width : Nat) : List Char :=
  if o.pretty then '\n' :: List.replicate width ' ' else []

/-- What stands between two items or members. -/
def separator (o : SerializeOptions) : List Char :=
  if o.pretty then [','] else [',', ' ']

/-- What stands between a key and its value. -/
def keySeparator (o : SerializeOptions) : List Char :=
  if o.pretty then [' ', ':', ' '] else [':', ' ']

/-- Texts have fewer characters than this. -/
def lengthLimit : Nat := Nat.pow 2 63

/-- Whether the first indented line would already be longer than a text can be. -/
def isTooWide (o : SerializeOptions) : Bool :=
  o.pretty && decide (lengthLimit ≤ o.indent)

end SerializeOptions

namespace Tree

mutual

/-- The text of a tree whose own line is indented by `width`. -/
def render (o : SerializeOptions) (width : Nat) : Tree → List Char
  | null => "null".toList
  | boolean b => if b then "true".toList else "false".toList
  | number x => x.text
  | string s => Literal.ofText s.toList
  | array [] => ['[', ']']
  | array (t :: r) =>
    let inner := width + o.indent
    '[' :: (o.lineBreak inner ++ t.render o inner ++ renderItems o inner r ++ o.lineBreak width)
      ++ [']']
  | object [] => ['\x7b', '\x7d']
  | object ((k, t) :: r) =>
    let inner := width + o.indent
    '\x7b' :: (o.lineBreak inner ++ Literal.ofText k.toList ++ o.keySeparator ++ t.render o inner
      ++ renderMembers o inner r ++ o.lineBreak width) ++ ['\x7d']

/-- The text of the items after the first. -/
def renderItems (o : SerializeOptions) (width : Nat) : List Tree → List Char
  | [] => []
  | t :: r => o.separator ++ o.lineBreak width ++ t.render o width ++ renderItems o width r

/-- The text of the members after the first. -/
def renderMembers (o : SerializeOptions) (width : Nat) : List (String × Tree) → List Char
  | [] => []
  | (k, t) :: r =>
    o.separator ++ o.lineBreak width ++ Literal.ofText k.toList ++ o.keySeparator
      ++ t.render o width ++ renderMembers o width r

end

/-- Whether a tree is a container that is not empty. -/
def hasChildren : Tree → Bool
  | array items => !items.isEmpty
  | object members => !members.isEmpty
  | _ => false

/-- The document that denotes a tree. -/
def serialize [Platform] (o : SerializeOptions) (t : Tree) : Except Failure String :=
  if o.isTooWide && t.hasChildren then .error .indentTooWide
  else if nestingLimit < t.depth then .error .tooDeepToSerialize
  else .ok (String.ofList (t.render o 0))

end Tree

end StrictJson
