import StrictJson.Yaml.Scanner

/-!
# Block scalars in a text

A block scalar consists of the lines that are indented beyond the block around it. Its header says
whether lines are folded, what becomes of the line breaks at its end, and possibly how far it is
indented.
-/

namespace StrictJson.Yaml.Scanner

/-- What becomes of the line breaks at the end of a block scalar. -/
inductive Chomping where
  /-- None is kept. -/
  | strip
  /-- One is kept. -/
  | clip
  | keep
deriving DecidableEq

/-- The sign for chomping, if there is one. -/
def takeChomping : Scan (Option Chomping) := do
  match ← peek 0 with
  | some '+' =>
    advance 1
    return some .keep
  | some '-' =>
    advance 1
    return some .strip
  | _ => return none

/-- The digit for the indentation, if there is one. It is not zero. -/
def takeIndentation : Scan (Option Nat) := do
  match ← peek 0 with
  | some c =>
    if c.isDigit then
      if c == '0' then malformed .badBlockHeader
      advance 1
      return some (c.toNat - 0x30)
    else return none
  | none => return none

/-- The header of a block scalar: chomping and indentation in either order. -/
def takeHeader : Scan (Chomping × Option Nat) := do
  let first ← takeChomping
  let indentation ← takeIndentation
  let chomping ← if first.isNone && indentation.isSome then takeChomping else pure first
  if !isSpaceOrEnd (← peek 0) then malformed .badBlockHeader
  skipLine .badBlockHeader
  return (chomping.getD .clip, indentation)

/-- Skip the empty lines before the text of a block scalar. The result are the line breaks, and the
greatest column reached. -/
def leadingBreaks : Nat → List Char → Nat → Scan (List Char × Nat)
  | 0, breaks, column => return (breaks, column)
  | fuel + 1, breaks, column => do
    skipSpaces
    let column := max column (← get).column
    match ← takeBreak with
    | some c => leadingBreaks fuel (breaks ++ [c]) column
    | none => return (breaks, column)

/-- Skip spaces up to a column. -/
def skipIndentation (indent : Nat) : Scan Unit := do
  let s ← get
  let spaces := (s.rest.takeWhile (· == ' ')).length
  let n := min spaces (indent - s.column)
  need (if n < indent - s.column then n + 1 else n)
  if n != 0 then advance n

/-- Skip the empty lines inside a block scalar. The result are their line breaks. -/
def blockBreaks (indent : Nat) : Nat → List Char → Scan (List Char)
  | 0, breaks => return breaks
  | fuel + 1, breaks => do
    skipIndentation indent
    match ← takeBreak with
    | some c => blockBreaks indent fuel (breaks ++ [c])
    | none => return breaks

/-- Whether a line of the block scalar begins at the cursor. -/
def isAtBlockLine (indent : Nat) : Scan Bool := do
  if (← get).column == indent then return (← peek 0).isSome else return false

/-- Whether there is a space or a tab. -/
def isBlank (c : Option Char) : Bool :=
  c == some ' ' || c == some '\t'

/-- The lines of a block scalar in reverse, the line break behind the last, and those of the empty
lines behind it. -/
def blockLines (isFolded : Bool) (indent : Nat) :
    Nat → List Char → List Char → Scan (List Char × List Char × List Char)
  | 0, text, breaks => return (text, [], breaks)
  | fuel + 1, text, breaks => do
    let startsWithText := !isBlank (← peek 0)
    let line ← takeWhile fun c => !isBreak c
    let lineBreak := (← takeBreak).toList
    let text := (breaks ++ line).reverseAux text
    let breaks ← blockBreaks indent (← get).length []
    if ← isAtBlockLine indent then
      let goesOnWithText := !isBlank (← peek 0)
      let between :=
        if isFolded && lineBreak == ['\n'] && startsWithText && goesOnWithText then
          if breaks.isEmpty then [' '] else []
        else lineBreak
      blockLines isFolded indent fuel (between.reverseAux text) breaks
    else return (text, lineBreak, breaks)

/-- The text of a block scalar. -/
def scanBlock (isFolded : Bool) : Scan (List Char) := do
  advance 1
  let (chomping, indentation) ← takeHeader
  let s ← get
  let least := max 1 (s.indent + 1).toNat
  let (indent, breaks) ← match indentation with
    | some n => do
      let indent := least + n - 1
      pure (indent, ← blockBreaks indent s.length [])
    | none => do
      let (breaks, column) ← leadingBreaks s.length [] 0
      pure (max least column, breaks)
  let (text, lineBreak, breaks) ←
    if ← isAtBlockLine indent then blockLines isFolded indent (← get).length [] breaks
    else pure ([], [], breaks)
  return text.reverse ++ match chomping with
    | .strip => []
    | .clip => lineBreak
    | .keep => lineBreak ++ breaks

/-- A block scalar. -/
def fetchBlock (isFolded : Bool) : Scan Unit := do
  allowKey true
  dropCandidate
  emit (.quoted ((← scanBlock isFolded).map CodePoint.ofChar))

end StrictJson.Yaml.Scanner
