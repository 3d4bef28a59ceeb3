import StrictJson.Text.Digit
import StrictJson.Yaml.Input
import StrictJson.Yaml.Token

/-!
# Scanning YAML

Indentation decides where block collections begin and end. Whether a scalar or a flow collection is
a key is known only at the colon behind it, so the scanner remembers where a key may have begun, and
puts the tokens of a key there when the colon comes. Tokens are scanned one at a time and only when
they are needed.
-/

namespace StrictJson.Yaml

/-- Where a key may have begun. -/
structure Candidate where
  level : Nat
  tokenNumber : Nat
  isRequired : Bool
  index : Nat
  line : Nat
  column : Nat

/-- The state of the scanner: the number of characters of the whole input, the input behind the
cursor and the cursor's place, the open block collections by their columns, the number of open flow
collections, where keys may have begun, the tokens that are scanned and not yet taken, and the
number of those taken. -/
structure Scanner where
  length : Nat
  input : Input
  index : Nat
  line : Nat
  column : Nat
  indent : Int
  outerIndents : List Int
  flowLevel : Nat
  allowsKey : Bool
  candidates : List Candidate
  tokens : List Token
  taken : Nat
  isDone : Bool

/-- Scanning changes the state or fails. -/
abbrev Scan := StateT Scanner (Except Error)

/-- Fail because a rule is broken. -/
def malformed {α : Type} (m : Malformation) : Scan α :=
  throw (.malformed m)

/-- Whether a character ends a line. -/
def isBreak (c : Char) : Bool :=
  c == '\n' || c == '\r' || c == '\x85' || c == '\u2028' || c == '\u2029'

/-- Whether a line ends here, at a break or with the text. -/
def isLineEnd : Option Char → Bool
  | none => true
  | some c => isBreak c

/-- Whether a line ends here or there is a space. -/
def isSpaceOrEnd (c : Option Char) : Bool :=
  c == some ' ' || isLineEnd c

/-- Whether a line ends here or there is a space or a tab. -/
def isGap (c : Option Char) : Bool :=
  c == some '\t' || isSpaceOrEnd c

namespace Scanner

/-- The scanner at the start of an input. -/
def start (i : Input) : Scanner where
  length := i.chars.length
  input := i
  index := 0
  line := 0
  column := 0
  indent := -1
  outerIndents := []
  flowLevel := 0
  allowsKey := true
  candidates := []
  tokens := []
  taken := 0
  isDone := false

/-- The characters behind the cursor. -/
def rest (s : Scanner) : List Char :=
  s.input.chars

/-- Whether the cursor is inside a flow collection. -/
def isInFlow (s : Scanner) : Bool :=
  s.flowLevel != 0

/-! ## Looking ahead and moving on -/

/-- Make sure that `n` characters behind the cursor are read. Their fault is found, if there are not
so many before it. -/
def need (n : Nat) : Scan Unit := do
  let s ← get
  match s.input.fault with
  | some e => if (s.rest.take n).length < n then throw e
  | none => pure ()

/-- The character `n` places ahead. -/
def peek (n : Nat) : Scan (Option Char) := do
  need (n + 1)
  return (← get).rest[n]?

/-- The state behind the next character. A byte order mark takes no column. -/
def next (s : Scanner) : Scanner :=
  match s.input.chars with
  | [] => s
  | c :: r =>
    let s := { s with input := { s.input with chars := r }, index := s.index + 1 }
    if isBreak c then { s with line := s.line + 1, column := 0 }
    else if c == '\ufeff' then s
    else { s with column := s.column + 1 }

/-- Go on by `n` characters. -/
def move : Nat → Scanner → Scanner
  | 0, s => s
  | n + 1, s => move n s.next

/-- Go on by `n` characters. The one behind them is read, too. -/
def advance (n : Nat) : Scan Unit := do
  need (n + 1)
  modify (move n)

/-- The characters of a class that come next, `n` places ahead. The one behind them is read, too. -/
def lookWhile (n : Nat) (p : Char → Bool) : Scan (List Char) := do
  let cs := ((← get).rest.drop n).takeWhile p
  need (n + cs.length + 1)
  return cs

/-- Take the characters of a class that come next. -/
def takeWhile (p : Char → Bool) : Scan (List Char) := do
  let cs ← lookWhile 0 p
  modify (move cs.length)
  return cs

/-- The number of the hexadecimal digits that come next, which have to be `width`. -/
def takeHex (width : Nat) (m : Malformation) : Scan Nat := do
  let digits := (← get).rest.take width
  match digits.mapM Hex.digitOfChar? with
  | some values =>
    need width
    if values.length < width then malformed m
    return values.foldl (fun n d => n * 16 + d) 0
  | none => malformed m

/-- Skip spaces. -/
def skipSpaces : Scan Unit := do
  let _ ← takeWhile (· == ' ')

/-- Take a line break, if there is one. Those of the usual form are read as line feeds. -/
def takeBreak : Scan (Option Char) := do
  match ← peek 0 with
  | some c =>
    if isBreak c then
      advance 1
      return some (if c == '\u2028' || c == '\u2029' then c else '\n')
    else return none
  | none => return none

/-- Skip what is left of a line, which may be a comment, and its end. -/
def skipLine (m : Malformation) : Scan Unit := do
  skipSpaces
  if (← peek 0) == some '#' then
    let _ ← takeWhile fun c => !isBreak c
  if !isLineEnd (← peek 0) then malformed m
  let _ ← takeBreak

/-- Whether a document marker stands here, if this is the start of a line. -/
def isAtMarker : Scan Bool := do
  need 3
  match (← get).rest with
  | '-' :: '-' :: '-' :: _ => return isGap (← peek 3)
  | '.' :: '.' :: '.' :: _ => return isGap (← peek 3)
  | _ => return false

/-- Skip spaces, comments and line breaks. Behind a line break outside of flow collections a key may
begin. -/
def skipGaps : Nat → Scan Unit
  | 0 => pure ()
  | fuel + 1 => do
    skipSpaces
    if (← peek 0) == some '#' then
      let _ ← takeWhile fun c => !isBreak c
    match ← takeBreak with
    | some _ =>
      modify fun s => if s.isInFlow then s else { s with allowsKey := true }
      skipGaps fuel
    | none => pure ()

/-- What line breaks inside a scalar stand for: a single one is a space, of several the first is
left out. -/
def folded (first : Char) (more : List Char) : List Char :=
  if first != '\n' then first :: more else if more.isEmpty then [' '] else more

/-! ## Tokens and keys -/

/-- Add a token. -/
def emit (t : Token) : Scan Unit :=
  modify fun s => { s with tokens := s.tokens ++ [t] }

/-- Put a token at the place of the token with a number. -/
def emitAt (number : Nat) (t : Token) : Scan Unit :=
  modify fun s => { s with tokens := s.tokens.insertIdx (number - s.taken) t }

/-- Say whether a key may begin at the next token. -/
def allowKey (allows : Bool) : Scan Unit :=
  modify fun s => { s with allowsKey := allows }

/-- Keep the candidates of a class. The others must not be required. -/
def keepCandidates (p : Candidate → Bool) : Scan Unit := do
  let s ← get
  if s.candidates.any fun k => !p k && k.isRequired then malformed .missingColon
  set { s with candidates := s.candidates.filter p }

/-- Forget where keys began whose colon can no longer come: a key takes one line and no more than
1024 characters. -/
def dropStale : Scan Unit := do
  let s ← get
  keepCandidates fun k => k.line == s.line && decide (s.index ≤ k.index + 1024)

/-- Forget where a key may have begun on the current level. -/
def dropCandidate : Scan Unit := do
  let s ← get
  keepCandidates fun k => k.level != s.flowLevel

/-- Remember that a key may begin here. -/
def saveCandidate : Scan Unit := do
  if (← get).allowsKey then
    dropCandidate
    modify fun s =>
      let k : Candidate := {
        level := s.flowLevel
        tokenNumber := s.taken + s.tokens.length
        isRequired := !s.isInFlow && s.indent == s.column
        index := s.index
        line := s.line
        column := s.column }
      { s with candidates := k :: s.candidates }

/-! ## Block collections -/

/-- Close the block collections that are indented deeper than `column`: the new indentation, the
ones outside of it, and the number of those closed. -/
def closing (column : Int) : Int → List Int → Int × List Int × Nat
  | indent, [] => (indent, [], 0)
  | indent, outer :: more =>
    if column < indent then
      let (i, os, n) := closing column outer more
      (i, os, n + 1)
    else (indent, outer :: more, 0)

/-- Close the block collections that are indented deeper than `column`. -/
def unwind (column : Int) : Scan Unit :=
  modify fun s =>
    if s.isInFlow then s
    else
      let (indent, outer, n) := closing column s.indent s.outerIndents
      { s with
        indent := indent
        outerIndents := outer
        tokens := s.tokens ++ List.replicate n .blockEnd }

/-- Open a block collection at `column`, unless one is open there, and put its token at the place of
the token with a number. -/
def openBlock (column number : Nat) (t : Token) : Scan Unit := do
  let s ← get
  if s.indent < column then
    set { s with indent := column, outerIndents := s.indent :: s.outerIndents }
    emitAt number t

/-- Open a block collection at the cursor, where an indicator stands that needs one. -/
def openBlockHere (t : Token) (m : Malformation) : Scan Unit := do
  let s ← get
  if !s.isInFlow then
    if !s.allowsKey then malformed m
    openBlock s.column (s.taken + s.tokens.length) t

/-! ## Indicators -/

/-- Take an indicator of `length` characters. -/
def fetchIndicator (t : Token) (length : Nat) : Scan Unit := do
  advance length
  emit t

/-- The opening of a flow collection. -/
def fetchFlowStart (t : Token) : Scan Unit := do
  saveCandidate
  modify fun s => { s with flowLevel := s.flowLevel + 1, allowsKey := true }
  fetchIndicator t 1

/-- The close of a flow collection. -/
def fetchFlowEnd (t : Token) : Scan Unit := do
  dropCandidate
  modify fun s => { s with flowLevel := s.flowLevel - 1, allowsKey := false }
  fetchIndicator t 1

/-- A comma between the parts of a flow collection. -/
def fetchFlowEntry : Scan Unit := do
  allowKey true
  dropCandidate
  fetchIndicator .flowEntry 1

/-- The dash of an item in a block sequence. -/
def fetchBlockEntry : Scan Unit := do
  openBlockHere .blockSequenceStart .sequenceNotAllowed
  allowKey true
  dropCandidate
  fetchIndicator .blockEntry 1

/-- The question mark before a key. -/
def fetchKey : Scan Unit := do
  openBlockHere .blockMappingStart .keyNotAllowed
  allowKey !(← get).isInFlow
  dropCandidate
  fetchIndicator .key 1

/-- The colon before a value. If a key may have begun before it, this is the place of the key. -/
def fetchValue : Scan Unit := do
  let s ← get
  match s.candidates.find? fun k => k.level == s.flowLevel with
  | some k =>
    set { s with candidates := s.candidates.filter fun k => k.level != s.flowLevel }
    emitAt k.tokenNumber .key
    if !s.isInFlow then openBlock k.column k.tokenNumber .blockMappingStart
    allowKey false
  | none =>
    openBlockHere .blockMappingStart .valueNotAllowed
    allowKey !s.isInFlow
    dropCandidate
  fetchIndicator .value 1

/-- The end of the block collections before a directive, a document marker or the end of the
text. -/
def leaveBlocks : Scan Unit := do
  unwind (-1)
  dropCandidate
  allowKey false

end Scanner

end StrictJson.Yaml
