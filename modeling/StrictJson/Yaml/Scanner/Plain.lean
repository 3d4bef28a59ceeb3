import StrictJson.Yaml.Scanner

/-!
# Plain scalars in a text

A plain scalar goes on over spaces and line breaks, as long as the lines are indented beyond the
block around it. Inside flow collections it ends at the indicators of flow collections, too.
-/

namespace StrictJson.Yaml.Scanner

/-- The number of characters of a plain scalar up to the next gap or indicator. -/
def plainLength (inFlow : Bool) : List Char → Nat
  | [] => 0
  | c :: r =>
    let indicatorBehind := match r.head? with
      | some d => inFlow && [',', '[', ']', '\x7b', '\x7d'].contains d
      | none => false
    if isGap (some c) || (c == ':' && (isGap r.head? || indicatorBehind))
        || (inFlow && [',', '?', '[', ']', '\x7b', '\x7d'].contains c) then 0
    else plainLength inFlow r + 1

/-- Take the characters of a plain scalar up to the next gap or indicator. To tell whether a colon
is an indicator, the character behind it is read. -/
def takePlain : Scan (List Char) := do
  let s ← get
  let length := plainLength s.isInFlow s.rest
  need (length + 1)
  if s.rest[length]? == some ':' then need (length + 2)
  if length != 0 then
    allowKey false
    advance length
  return s.rest.take length

/-- Skip spaces and line breaks inside a plain scalar and collect the breaks. There is no result if
a document marker ends the scalar. -/
def plainBreaks : Nat → List Char → Scan (Option (List Char))
  | 0, breaks => return some breaks
  | fuel + 1, breaks => do
    skipSpaces
    match ← takeBreak with
    | some c => if ← isAtMarker then return none else plainBreaks fuel (breaks ++ [c])
    | none => return some breaks

/-- The gap behind a part of a plain scalar: the text that it stands for if the scalar goes on. -/
def plainGap : Scan (List Char) := do
  let spaces ← takeWhile (· == ' ')
  match ← takeBreak with
  | none => return spaces
  | some first =>
    allowKey true
    if ← isAtMarker then return []
    else
      match ← plainBreaks (← get).length [] with
      | none => return []
      | some more => return folded first more

/-- The text of a plain scalar, in reverse and behind the part before the cursor. It ends at a
comment, at a line that is not indented beyond the block around it, and where nothing but a gap
follows. -/
def scanPlain (indent : Int) : Nat → List Char → List Char → Scan (List Char)
  | 0, text, _ => return text
  | fuel + 1, text, gap => do
    if (← peek 0) == some '#' then return text
    let part ← takePlain
    if part.isEmpty then return text
    let text := (gap ++ part).reverseAux text
    let gap ← plainGap
    if gap.isEmpty || (← peek 0) == some '#' then return text
    let s ← get
    if !s.isInFlow && decide (s.column < indent) then return text
    scanPlain indent fuel text gap

/-- A plain scalar. -/
def fetchPlain : Scan Unit := do
  saveCandidate
  allowKey false
  let s ← get
  emit (.plain (← scanPlain (s.indent + 1) (s.length + 1) [] []).reverse)

end StrictJson.Yaml.Scanner
