import StrictJson.Number.Text
import StrictJson.Yaml.Scanner.Properties

/-!
# Directives in a text

A directive takes a line before a document. There are directives for the version of YAML and for the
handles of tags; others are read over.
-/

namespace StrictJson.Yaml.Scanner

/-- Take the number of a version. -/
def takeVersionNumber : Scan Nat := do
  let digits ← lookWhile 0 Char.isDigit
  if digits.isEmpty then malformed .badDirective
  if mostDigits < digits.length then throw (.defective .outOfRange)
  advance digits.length
  return digits.foldl (fun n c => n * 10 + (c.toNat - 0x30)) 0

/-- Take a version. What matters is the number before its point. -/
def takeVersion : Scan Directive := do
  skipSpaces
  let major ← takeVersionNumber
  if (← peek 0) != some '.' then malformed .badDirective
  advance 1
  let _ ← takeVersionNumber
  if !isSpaceOrEnd (← peek 0) then malformed .badDirective
  return .version major

/-- Take a handle and what the tags with it begin with. -/
def takeTagHandle : Scan Directive := do
  skipSpaces
  let handle ← takeHandle
  if (← peek 0) != some ' ' then malformed .badDirective
  skipSpaces
  let start ← takeUri
  if !isSpaceOrEnd (← peek 0) then malformed .badDirective
  return .tagHandle handle start

/-- Take what a directive says, from the percent sign to the end of the line. -/
def scanDirective : Scan Directive := do
  advance 1
  let name ← takeWhile isNameChar
  if name.isEmpty || !isSpaceOrEnd (← peek 0) then malformed .badDirective
  let d ←
    if name == "YAML".toList then takeVersion
    else if name == "TAG".toList then takeTagHandle
    else do
      let _ ← takeWhile fun c => !isBreak c
      pure Directive.other
  skipLine .badDirective
  return d

/-- A directive. -/
def fetchDirective : Scan Unit := do
  leaveBlocks
  emit (.directive (← scanDirective))

end StrictJson.Yaml.Scanner
