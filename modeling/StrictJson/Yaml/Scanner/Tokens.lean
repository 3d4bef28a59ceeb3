import StrictJson.Yaml.Scanner.Block
import StrictJson.Yaml.Scanner.Directive
import StrictJson.Yaml.Scanner.Plain
import StrictJson.Yaml.Scanner.Quoted

/-!
# The tokens of a text

What stands at the cursor decides which token is scanned next. A token is handed out only when it is
certain that no key begins before it.
-/

namespace StrictJson.Yaml.Scanner

/-! ## Scanning a token -/

/-- The characters at which no plain scalar begins, unless more is known. -/
def indicators : List Char :=
  ['-', '?', ':', ',', '[', ']', '\x7b', '\x7d', '#', '&', '*', '!', '|', '>', '\'', '"', '%', '@',
    '\x60']

/-- Whether a plain scalar begins with `c`. Some indicators begin one if no gap is behind them. -/
def startsPlain (c : Char) : Scan Bool := do
  if !isGap (some c) && !indicators.contains c then return true
  else if isGap (← peek 1) then return false
  else return c == '-' || (!(← get).isInFlow && (c == '?' || c == ':'))

/-- Whether the indicator of a key or a value stands here. In flow collections it does in any case,
elsewhere before a gap. -/
def isIndicator : Scan Bool := do
  if (← get).isInFlow then return true else return isGap (← peek 1)

/-- The end of the text. -/
def fetchEnd : Scan Unit := do
  leaveBlocks
  modify fun s => { s with candidates := [], isDone := true }
  emit .streamEnd

/-- A document marker. -/
def fetchMarker (t : Token) : Scan Unit := do
  leaveBlocks
  fetchIndicator t 3

/-- What begins with an indicator or a plain scalar. -/
def fetchAt (c : Char) : Scan Unit := do
  match c with
  | '[' => fetchFlowStart .flowSequenceStart
  | '\x7b' => fetchFlowStart .flowMappingStart
  | ']' => fetchFlowEnd .flowSequenceEnd
  | '\x7d' => fetchFlowEnd .flowMappingEnd
  | ',' => fetchFlowEntry
  | '*' => fetchAlias
  | '&' => fetchAnchor
  | '!' => fetchTag
  | '\'' => fetchQuoted false
  | '"' => fetchQuoted true
  | _ =>
    if c == '-' then if isGap (← peek 1) then return ← fetchBlockEntry
    if c == '?' then if ← isIndicator then return ← fetchKey
    if c == ':' then if ← isIndicator then return ← fetchValue
    if (c == '|' || c == '>') && !(← get).isInFlow then fetchBlock (c == '>')
    else if ← startsPlain c then fetchPlain
    else malformed .noToken

/-- Scan what comes next. A text may begin with a byte order mark. -/
def fetch : Scan Unit := do
  if (← get).index == 0 then
    if (← peek 0) == some '\ufeff' then advance 1
  skipGaps ((← get).length + 1)
  dropStale
  unwind (← get).column
  match ← peek 0 with
  | none => fetchEnd
  | some c =>
    if (← get).column != 0 then fetchAt c
    else if c == '%' then fetchDirective
    else if c == '-' then if ← isAtMarker then fetchMarker .documentStart else fetchAt c
    else if c == '.' then if ← isAtMarker then fetchMarker .documentEnd else fetchAt c
    else fetchAt c

/-! ## Handing out tokens -/

/-- Whether the next token is not certain yet: there is none, or a key may begin before it. -/
def isUncertain : Scan Bool := do
  let s ← get
  if s.isDone then return false
  else if s.tokens.isEmpty then return true
  else
    dropStale
    return (← get).candidates.any fun k => k.tokenNumber == s.taken

/-- Scan on until the next token is certain. Each time the cursor moves on or the text ends. -/
def scanAhead : Nat → Scan Unit
  | 0 => pure ()
  | fuel + 1 => do
    if ← isUncertain then
      fetch
      scanAhead fuel

/-- The next token. Behind the end of the text there is only that end. -/
def peekToken : Scan Token := do
  scanAhead ((← get).length + 2)
  return (← get).tokens.head?.getD .streamEnd

/-- Go on behind the next token. -/
def dropToken : Scan Unit :=
  modify fun s => { s with tokens := s.tokens.drop 1, taken := s.taken + 1 }

end StrictJson.Yaml.Scanner
