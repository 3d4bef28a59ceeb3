import StrictJson.Yaml.Scanner

/-!
# Quoted scalars in a text

Between single quotes only the quote itself is special, and is written twice. Between double quotes
there are escapes, which can denote code points that are no characters. In both, line breaks are
folded.
-/

namespace StrictJson.Yaml.Scanner

/-- The character that a one-letter escape stands for. -/
def letterEscape? : Char → Option Char
  | '0' => some '\x00'
  | 'a' => some '\x07'
  | 'b' => some '\x08'
  | 't' => some '\t'
  | '\t' => some '\t'
  | 'n' => some '\n'
  | 'v' => some '\x0b'
  | 'f' => some '\x0c'
  | 'r' => some '\r'
  | 'e' => some '\x1b'
  | ' ' => some ' '
  | '"' => some '"'
  | '\\' => some '\\'
  | '/' => some '/'
  | 'N' => some '\x85'
  | '_' => some '\xa0'
  | 'L' => some '\u2028'
  | 'P' => some '\u2029'
  | _ => none

/-- The number of hexadecimal digits behind an escape marker. -/
def hexEscape? : Char → Option Nat
  | 'x' => some 2
  | 'u' => some 4
  | 'U' => some 8
  | _ => none

/-- The code point with a number. Numbers beyond all words of 31 bits overflow. -/
def codePointOf (n : Nat) : Scan CodePoint :=
  if h : n < 0x110000 then pure ⟨n, h⟩
  else throw (.defective (if n < 0x80000000 then .outOfRange else .overflow))

/-- Skip the breaks behind the first one inside a quoted scalar and collect them. -/
def quotedBreaks : Nat → List Char → Scan (List Char)
  | 0, breaks => return breaks
  | fuel + 1, breaks => do
    if ← isAtMarker then malformed .markerInQuotes
    let _ ← takeWhile fun c => c == ' ' || c == '\t'
    match ← takeBreak with
    | some c => quotedBreaks fuel (breaks ++ [c])
    | none => return breaks

/-- The text that an escape stands for. The cursor is at the marker behind the backslash. -/
def scanEscape : Scan (List CodePoint) := do
  match ← peek 0 with
  | none => malformed .unknownEscape
  | some marker =>
    match letterEscape? marker, hexEscape? marker with
    | some c, _ =>
      advance 1
      return [CodePoint.ofChar c]
    | none, some width =>
      advance 1
      let c ← codePointOf (← takeHex width .unknownEscape)
      advance width
      return [c]
    | none, none =>
      match ← takeBreak with
      | some _ => return (← quotedBreaks (← get).length []).map CodePoint.ofChar
      | none => malformed .unknownEscape

/-- The gap inside a quoted scalar: the text that it stands for. -/
def quotedGap : Scan (List Char) := do
  let blanks ← takeWhile fun c => c == ' ' || c == '\t'
  if (← peek 0).isNone then malformed .unclosedQuote
  match ← takeBreak with
  | some first => return folded first (← quotedBreaks (← get).length [])
  | none => return blanks

/-- The text of a quoted scalar from the cursor to its closing quote, in reverse and behind the part
before the cursor. -/
def scanQuoted (isDouble : Bool) : Nat → List CodePoint → Scan (List CodePoint)
  | 0, _ => malformed .unclosedQuote
  | fuel + 1, text => do
    let part ← takeWhile fun c => !(isGap (some c) || c == '\'' || c == '"' || c == '\\')
    let text := (part.map CodePoint.ofChar).reverseAux text
    match ← peek 0 with
    | none => malformed .unclosedQuote
    | some c =>
      if !isDouble && c == '\'' then
        if (← peek 1) == some '\'' then
          advance 2
          scanQuoted isDouble fuel (CodePoint.ofChar c :: text)
        else
          advance 1
          return text
      else if isDouble && c == '"' then
        advance 1
        return text
      else if isDouble && c == '\\' then
        advance 1
        scanQuoted isDouble fuel ((← scanEscape).reverseAux text)
      else if isGap (some c) then
        scanQuoted isDouble fuel (((← quotedGap).map CodePoint.ofChar).reverseAux text)
      else
        advance 1
        scanQuoted isDouble fuel (CodePoint.ofChar c :: text)

/-- A scalar in quotes. -/
def fetchQuoted (isDouble : Bool) : Scan Unit := do
  saveCandidate
  allowKey false
  advance 1
  emit (.quoted (← scanQuoted isDouble ((← get).length + 1) []).reverse)

end StrictJson.Yaml.Scanner
