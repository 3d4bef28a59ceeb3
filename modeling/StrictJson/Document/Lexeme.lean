import StrictJson.Document.Rejection
import StrictJson.Number.Decimal
import StrictJson.Text.Escape

/-!
# Lexemes

The scanners of words, strings and numbers. Each reads one lexeme from a cursor and returns the
cursor behind it, or rejects the document at the first octet that does not fit.
-/

namespace StrictJson.Document

/-! ## Cursors -/

/-- A place in a document: its offset, and the octets from there on. -/
structure Cursor where
  position : Nat
  rest : List UInt8

namespace Cursor

/-- Blanks may stand around every lexeme: space, tab, line feed and carriage return. -/
def isBlank (b : UInt8) : Bool :=
  b == 0x20 || b == 0x09 || b == 0x0A || b == 0x0D

/-- The place of the first octet that is no blank. -/
def skipBlanks (c : Cursor) : Cursor where
  position := c.position + (c.rest.takeWhile isBlank).length
  rest := c.rest.dropWhile isBlank

/-- What stands at the cursor. -/
def found (c : Cursor) : Found :=
  match c.rest with
  | [] => .endOfInput
  | b :: _ => .octet b

end Cursor

/-! ## Words -/

/-- Match the octets of a word one by one. -/
def scanOctets (w : Word) : List UInt8 → Cursor → Except Rejection Cursor
  | [], c => .ok c
  | e :: es, c =>
    match c.rest with
    | b :: r =>
      if b = e then scanOctets w es ⟨c.position + 1, r⟩
      else violate c.position (.word w c.found)
    | [] => violate c.position (.word w c.found)

/-- Read a word. -/
def scanWord (w : Word) (c : Cursor) : Except Rejection Cursor :=
  scanOctets w w.octets c

/-! ## Strings -/

/-- Put octets before those that a scan collects. -/
def collect (bs : List UInt8) :
    Except Rejection (List UInt8 × Cursor) → Except Rejection (List UInt8 × Cursor)
  | .ok (more, c) => .ok (bs ++ more, c)
  | .error e => .error e

/-- Read the rest of a string after its opening quote. The octets are those the string stands for,
with escapes decoded one at a time; they need not be well-formed UTF-8. -/
def scanString : Nat → List UInt8 → Except Rejection (List UInt8 × Cursor)
  | p, [] => violate p .unterminatedString
  | p, b :: r =>
    if b = Literal.quote then .ok ([], ⟨p + 1, r⟩)
    else if b = Literal.backslash then
      match r with
      | [] => violate p .unterminatedEscape
      | marker :: r₁ =>
        if marker = Literal.unicodeMarker then
          match r₁ with
          | h₁ :: h₂ :: h₃ :: h₄ :: r₂ =>
            match Hex.four? h₁ h₂ h₃ h₄ with
            | some n => collect (Utf8.encodeNat n) (scanString (p + 6) r₂)
            | none => violate (p + 2) .invalidUnicodeEscape
          | _ => violate (p + 2) .invalidUnicodeEscape
        else
          match Literal.simple? marker with
          | some d => collect [d] (scanString (p + 2) r₁)
          | none => violate p .invalidEscape
    else if b.toNat < 0x20 then violate p (.controlCharacter b)
    else collect [b] (scanString (p + 1) r)

/-! ## Numbers -/

/-- Whether an octet is a decimal digit. -/
def isDigit (b : UInt8) : Bool :=
  decide (0x30 ≤ b.toNat ∧ b.toNat ≤ 0x39)

/-- The number that decimal digits write. -/
def digitsValue (ds : List UInt8) : Nat :=
  ds.foldl (fun n b => 10 * n + (b.toNat - 0x30)) 0

/-- The digits at the cursor, and the cursor behind them. -/
def takeDigits (c : Cursor) : List UInt8 × Cursor :=
  let ds := c.rest.takeWhile isDigit
  (ds, ⟨c.position + ds.length, c.rest.dropWhile isDigit⟩)

/-- The parts of a number as written. A number without a point has no fraction digits, and one
without an exponent has no exponent digits. -/
structure Numeral where
  negative : Bool
  whole : List UInt8
  fraction : List UInt8
  exponentNegative : Bool
  exponent : List UInt8

namespace Numeral

/-- The exponent as a number. -/
def exponentValue (n : Numeral) : Int :=
  if n.exponentNegative then -(digitsValue n.exponent : Int) else digitsValue n.exponent

/-- The absolute value of a number, exactly. -/
def toDecimal (n : Numeral) : Decimal where
  coefficient := digitsValue (n.whole ++ n.fraction)
  exponent := n.exponentValue - n.fraction.length

/-- The double nearest to a number, if it is in range. -/
def toBinary64? (n : Numeral) : Option Binary64 :=
  let m := n.toDecimal.toMagnitude
  if m < Binary64.infinity then some (.ofMagnitude n.negative m) else none

end Numeral

/-- Read the digits before the point: a single zero, or digits that do not start with one. -/
def scanWhole (c : Cursor) : Except Rejection (List UInt8 × Cursor) :=
  match takeDigits c with
  | ([], _) => violate c.position .noDigit
  | (d :: more, next) =>
    if d = 0x30 ∧ more ≠ [] then violate (c.position + 1) .leadingZero else .ok (d :: more, next)

/-- Read digits of which there must be one at least. -/
def scanDigits (v : Violation) (c : Cursor) : Except Rejection (List UInt8 × Cursor) :=
  match takeDigits c with
  | ([], _) => violate c.position v
  | (d :: more, next) => .ok (d :: more, next)

/-- Read a point and the digits behind it, if there is a point. -/
def scanFraction (c : Cursor) : Except Rejection (List UInt8 × Cursor) :=
  match c.rest with
  | b :: r => if b = 0x2E then scanDigits .noFractionDigit ⟨c.position + 1, r⟩ else .ok ([], c)
  | [] => .ok ([], c)

/-- Read a sign, if there is one; the result tells whether it is a minus. -/
def scanSign (c : Cursor) : Bool × Cursor :=
  match c.rest with
  | b :: r =>
    if b = 0x2D then (true, ⟨c.position + 1, r⟩)
    else if b = 0x2B then (false, ⟨c.position + 1, r⟩)
    else (false, c)
  | [] => (false, c)

/-- Read an exponent, if there is one. -/
def scanExponent (c : Cursor) : Except Rejection (Bool × List UInt8 × Cursor) :=
  match c.rest with
  | b :: r =>
    if b = 0x65 ∨ b = 0x45 then
      let (negative, c₁) := scanSign ⟨c.position + 1, r⟩
      match scanDigits .noExponentDigit c₁ with
      | .ok (ds, c₂) => .ok (negative, ds, c₂)
      | .error e => .error e
    else .ok (false, [], c)
  | [] => .ok (false, [], c)

/-- Read a minus, if there is one. -/
def scanMinus (c : Cursor) : Bool × Cursor :=
  match c.rest with
  | b :: r => if b = 0x2D then (true, ⟨c.position + 1, r⟩) else (false, c)
  | [] => (false, c)

/-- Read a number as written. -/
def scanNumeral (c : Cursor) : Except Rejection (Numeral × Cursor) := do
  let (negative, c₁) := scanMinus c
  let (whole, c₂) ← scanWhole c₁
  let (fraction, c₃) ← scanFraction c₂
  let (exponentNegative, exponent, c₄) ← scanExponent c₃
  return (⟨negative, whole, fraction, exponentNegative, exponent⟩, c₄)

/-- Read a number as a double. -/
def scanNumber (c : Cursor) : Except Rejection (Binary64 × Cursor) :=
  match scanNumeral c with
  | .error e => .error e
  | .ok (n, next) =>
    match n.toBinary64? with
    | some x => .ok (x, next)
    | none => violate c.position .numberOutOfRange

end StrictJson.Document
