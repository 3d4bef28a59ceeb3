import StrictJson.Yaml.Scanner

/-!
# Names and tags in a text

A node can have an anchor, by which it is named, and a tag, which says what it is. An alias stands
for the node of an anchor. A tag is written in full, or begins with a handle for what many tags
begin with.
-/

namespace StrictJson.Yaml.Scanner

/-- Whether a character can be part of a name or a handle. -/
def isNameChar (c : Char) : Bool :=
  c.isAlphanum || c == '-' || c == '_'

/-! ## Anchors and aliases -/

/-- Whether a name can end before a character. -/
def canFollowName : Option Char → Bool
  | none => true
  | some c => isGap (some c) || ['?', ':', ',', ']', '\x7d', '%', '@', '\x60'].contains c

/-- Take the name behind the indicator of an anchor or an alias. -/
def takeName : Scan (List Char) := do
  advance 1
  let name ← takeWhile isNameChar
  if name.isEmpty || !canFollowName (← peek 0) then malformed .badName
  return name

/-- An anchor. -/
def fetchAnchor : Scan Unit := do
  saveCandidate
  allowKey false
  emit (.anchor (← takeName))

/-- An alias. -/
def fetchAlias : Scan Unit := do
  saveCandidate
  allowKey false
  emit (.alias (← takeName))

/-! ## Tags -/

/-- Whether a character stands for itself in a tag. -/
def isTagChar (c : Char) : Bool :=
  c.isAlphanum || "-;/?:@&=+$,_.!~*'()[]".toList.contains c

/-- Take the octets that escapes denote. -/
def takeOctets : Nat → List UInt8 → Scan (List UInt8)
  | 0, octets => return octets
  | fuel + 1, octets => do
    if (← peek 0) == some '%' then
      advance 1
      let n ← takeHex 2 .badTag
      advance 2
      takeOctets fuel (octets ++ [UInt8.ofNat n])
    else return octets

/-- Take the characters of a tag. Escapes denote the octets of characters. -/
def takeTagText : Nat → List Char → Scan (List Char)
  | 0, text => return text
  | fuel + 1, text => do
    let text := text ++ (← takeWhile isTagChar)
    if (← peek 0) == some '%' then
      match Utf8.decode (← takeOctets (← get).length []) with
      | some cs => takeTagText fuel (text ++ cs)
      | none => malformed .badTag
    else return text

/-- Take what a tag consists of, or what tags with a handle begin with. There has to be
something. -/
def takeUri : Scan (List Char) := do
  let text ← takeTagText ((← get).length + 1) []
  if text.isEmpty then malformed .badTag
  return text

/-- Take a handle: an exclamation mark, or a name between two of them. -/
def takeHandle : Scan (List Char) := do
  if (← peek 0) != some '!' then malformed .badTag
  if (← peek 1) == some ' ' then
    advance 1
    return ['!']
  else
    let name ← lookWhile 1 isNameChar
    if (← peek (name.length + 1)) != some '!' then malformed .badTag
    advance (name.length + 2)
    return '!' :: name ++ ['!']

/-- Take the parts of a tag: its handle, if it does not go without, and the rest. A tag that is an
exclamation mark and nothing else goes without. -/
def takeTagParts : Scan (Option (List Char) × List Char) := do
  let behind ← peek 1
  if behind == some '<' then
    advance 2
    let uri ← takeUri
    if (← peek 0) != some '>' then malformed .badTag
    advance 1
    return (none, uri)
  else if isGap behind then
    advance 1
    return (none, ['!'])
  else
    let word ← lookWhile 1 fun c => c != '!' && !isSpaceOrEnd (some c)
    if (← peek (word.length + 1)) == some '!' then
      let handle ← takeHandle
      return (some handle, ← takeUri)
    else
      advance 1
      return (some ['!'], ← takeUri)

/-- A tag. -/
def fetchTag : Scan Unit := do
  saveCandidate
  allowKey false
  let (handle, suffix) ← takeTagParts
  if !isSpaceOrEnd (← peek 0) then malformed .badTag
  emit (.tag handle suffix)

end StrictJson.Yaml.Scanner
