import StrictJson.Text.Digit
import StrictJson.Text.Printable

/-!
# Displayed text

Error messages show a text between quotation marks, on one line and with every character visible.
-/

namespace StrictJson.Displayed

/-- The text of a code point as itself. Surrogates have none and never come here. -/
def literal (c : CodePoint) : List Char :=
  (scalar? c.val).toList

/-- A code point within a displayed text whose quotation mark is `mark`. -/
def codePoint (mark : Char) (c : CodePoint) : List Char :=
  let n := c.val
  if n = 0x5C ∨ n = mark.toNat then '\\' :: literal c
  else if n = 0x0A then ['\\', 'n']
  else if n = 0x0D then ['\\', 'r']
  else if n = 0x09 then ['\\', 't']
  else if c.isPrintable then literal c
  else if n < 0x100 then '\\' :: 'x' :: Hex.padded 2 n
  else if n < 0x10000 then '\\' :: 'u' :: Hex.padded 4 n
  else '\\' :: 'U' :: Hex.padded 8 n

/-- The mark that encloses a text: single, unless the text has single marks and no double ones. -/
def mark (cs : List CodePoint) : Char :=
  if cs.any (·.val == 0x27) && !cs.any (·.val == 0x22) then '"' else '\''

/-- A text between quotation marks, with escapes for all that does not show. -/
def quoted (cs : List CodePoint) : String :=
  let m := mark cs
  String.ofList (m :: cs.flatMap (codePoint m) ++ [m])

/-- Octets between quotation marks, with escapes for all but visible ASCII. -/
def quotedOctets (bs : List UInt8) : String :=
  let m := mark (bs.map fun b => ⟨b.toNat, Nat.lt_trans b.toNat_lt (by decide)⟩)
  let shown (b : UInt8) : List Char :=
    let n := b.toNat
    if n = 0x5C ∨ n = m.toNat then ['\\', Char.ofNat n]
    else if n = 0x0A then ['\\', 'n']
    else if n = 0x0D then ['\\', 'r']
    else if n = 0x09 then ['\\', 't']
    else if 0x20 ≤ n ∧ n < 0x7F then [Char.ofNat n]
    else '\\' :: 'x' :: Hex.padded 2 n
  String.ofList ('b' :: m :: bs.flatMap shown ++ [m])

end StrictJson.Displayed
