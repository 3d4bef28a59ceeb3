import StrictJson.Text.Raw

/-!
# String literals

A string literal is a text between quotes, in which quotes, backslashes and control characters are
escaped. `escape` writes the literal of a text. `unescape` reads any text between quotes, and is
more lenient than a parser: control characters and quotes may stand bare inside.
-/

namespace StrictJson

namespace Literal

/-- The quote that encloses a literal. -/
def quote : UInt8 := 0x22

/-- The character that introduces an escape. -/
def backslash : UInt8 := 0x5C

/-- The marker of an escape by four hexadecimal digits. -/
def unicodeMarker : UInt8 := 0x75

/-- The octet that a simple escape stands for, by its marker. -/
def simple? (marker : UInt8) : Option UInt8 :=
  match marker.toNat with
  | 0x22 => some 0x22
  | 0x5C => some 0x5C
  | 0x2F => some 0x2F
  | 0x62 => some 0x08
  | 0x66 => some 0x0C
  | 0x6E => some 0x0A
  | 0x72 => some 0x0D
  | 0x74 => some 0x09
  | _ => none

/-- A character inside a literal: short escapes where there are any, hexadecimal ones for the other
control characters, and all else as it is. -/
def escapeChar (c : Char) : List Char :=
  match c.toNat with
  | 0x22 => ['\\', '"']
  | 0x5C => ['\\', '\\']
  | 0x08 => ['\\', 'b']
  | 0x0C => ['\\', 'f']
  | 0x0A => ['\\', 'n']
  | 0x0D => ['\\', 'r']
  | 0x09 => ['\\', 't']
  | n => if n < 0x20 then '\\' :: 'u' :: Hex.padded 4 n else [c]

/-- The literal of a text. -/
def ofText (s : List Char) : List Char :=
  '"' :: s.flatMap escapeChar ++ ['"']

/-- The octets that stand in a literal from position `p` to before the closing quote, decoded. -/
def decodeFrom : Nat → List UInt8 → Except Failure (List UInt8)
  | _, [] => .ok []
  | p, b :: r =>
    if b = backslash then
      match r with
      | [] => .error (.invalidEscape p)
      | marker :: r₁ =>
        if marker = unicodeMarker then
          match r₁ with
          | h₁ :: h₂ :: h₃ :: h₄ :: r₂ =>
            match Hex.four? h₁ h₂ h₃ h₄ with
            | some n => (decodeFrom (p + 6) r₂).map (Utf8.encodeNat n ++ ·)
            | none => .error (.invalidUnicodeEscape (p + 2))
          | _ => .error (.invalidUnicodeEscape p)
        else
          match simple? marker with
          | some d => (decodeFrom (p + 2) r₁).map (d :: ·)
          | none => .error (.invalidEscape (p + 1))
    else
      (decodeFrom (p + 1) r).map (b :: ·)

/-- The octets between the quotes of a literal. -/
def body? : List UInt8 → Option (List UInt8)
  | [] => none
  | b :: r => if b = quote ∧ r.getLast? = some quote then some r.dropLast else none

end Literal

/-- The characters of the literal of a text, provided that the text is well formed. -/
def RawText.literal (t : RawText) : Except Failure (List Char) :=
  t.toText.map fun s => Literal.ofText s.toList

/-- The literal of a text, provided that the text is well formed. -/
def escape (t : RawText) : Except Failure String :=
  t.literal.map String.ofList

/-- The octets of a text without surrogates. -/
def RawText.toPlainOctets : RawText → Except Failure (List UInt8)
  | octets bs => .ok bs
  | codePoints cs =>
    match surrogates? cs with
    | some (position, run) => .error (.surrogatesInText position run)
    | none => .ok (cs.flatMap Utf8.encode)

/-- The text of a literal. Hexadecimal escapes are decoded one at a time, so that a pair of
surrogate escapes is not combined but refused. -/
def unescape (t : RawText) : Except Failure String := do
  let bs ← t.toPlainOctets
  match Literal.body? bs with
  | none => .error .notQuoted
  | some body =>
    let decoded ← Literal.decodeFrom 1 body
    (RawText.octets decoded).toText

/-- The number written by the four hexadecimal digits that start at an offset. -/
def decodeHex4 (data : List UInt8) (start : Nat) : Except Failure Nat :=
  match data.drop start with
  | h₁ :: h₂ :: h₃ :: h₄ :: _ =>
    match Hex.four? h₁ h₂ h₃ h₄ with
    | some n => .ok n
    | none => .error (.invalidUnicodeEscape start)
  | _ => .error (.invalidUnicodeEscape start)

end StrictJson
