/-!
# Digits and white space

Reading integers whose digits may be grouped by underscores. Digits are those of ASCII, or those of
all scripts that write numbers in base ten: each script has its ten digits in a row, so the places
of the zeros tell the values of all digits. Then the four hexadecimal digits of a Unicode escape,
and the white space that may stand around a number.
-/

namespace StrictJson

/-! ## Decimal digits -/

namespace Digit

/-- The first digits of the scripts that write decimal numbers. -/
def zeros : List Nat :=
  [0x30, 0x660, 0x6F0, 0x7C0, 0x966, 0x9E6, 0xA66, 0xAE6, 0xB66, 0xBE6, 0xC66, 0xCE6, 0xD66, 0xDE6,
    0xE50, 0xED0, 0xF20, 0x1040, 0x1090, 0x17E0, 0x1810, 0x1946, 0x19D0, 0x1A80, 0x1A90, 0x1B50,
    0x1BB0, 0x1C40, 0x1C50, 0xA620, 0xA8D0, 0xA900, 0xA9D0, 0xA9F0, 0xAA50, 0xABF0, 0xFF10,
    0x104A0, 0x10D30, 0x11066, 0x110F0, 0x11136, 0x111D0, 0x112F0, 0x11450, 0x114D0, 0x11650,
    0x116C0, 0x11730, 0x118E0, 0x11950, 0x11C50, 0x11D50, 0x11DA0, 0x16A60, 0x16AC0, 0x16B50,
    0x1D7CE, 0x1D7D8, 0x1D7E2, 0x1D7EC, 0x1D7F6, 0x1E140, 0x1E2F0, 0x1E950, 0x1FBF0]

/-- The value of a decimal digit of any script. -/
def value? (c : Char) : Option Nat :=
  (zeros.find? fun z => z ≤ c.toNat && c.toNat < z + 10).map (c.toNat - ·)

/-- The value of an ASCII digit. -/
def ascii? (c : Char) : Option Nat :=
  if c.isDigit then some (c.toNat - 0x30) else none

/-- The values of digits, among which single underscores may stand. -/
def grouped? (digit? : Char → Option Nat) : List Char → Option (List Nat)
  | [] => none
  | [c] => (digit? c).map ([·])
  | c :: '_' :: r => do return (← digit? c) :: (← grouped? digit? r)
  | c :: r => do return (← digit? c) :: (← grouped? digit? r)

/-- The number that digits write, the most significant first. -/
def number (ds : List Nat) : Nat :=
  ds.foldl (fun n d => n * 10 + d) 0

/-- The integer that a text with an optional sign denotes. -/
def signed? (unsigned? : List Char → Option Nat) : List Char → Option Int
  | '-' :: r => (unsigned? r).map fun n => -(n : Int)
  | '+' :: r => (unsigned? r).map fun n => (n : Int)
  | r => (unsigned? r).map fun n => (n : Int)

end Digit

/-! ## Hexadecimal digits -/

namespace Hex

/-- The value of a hexadecimal digit in either case, given as an ASCII octet. -/
def digit? (b : UInt8) : Option Nat :=
  let n := b.toNat
  if 0x30 ≤ n ∧ n ≤ 0x39 then some (n - 0x30)
  else if 0x41 ≤ n ∧ n ≤ 0x46 then some (n - 0x37)
  else if 0x61 ≤ n ∧ n ≤ 0x66 then some (n - 0x57)
  else none

/-- The value of a hexadecimal digit in either case. -/
def digitOfChar? (c : Char) : Option Nat :=
  if c.toNat < 0x80 then digit? (UInt8.ofNat c.toNat) else none

/-- The number that four hexadecimal digits write. -/
def four? (b₁ b₂ b₃ b₄ : UInt8) : Option Nat := do
  let d₁ ← digit? b₁
  let d₂ ← digit? b₂
  let d₃ ← digit? b₃
  let d₄ ← digit? b₄
  return ((d₁ * 16 + d₂) * 16 + d₃) * 16 + d₄

/-- The lower-case hexadecimal digits of `n`, with leading zeros up to `width` digits. -/
def padded (width n : Nat) : List Char :=
  let digits := Nat.toDigits 16 n
  List.replicate (width - digits.length) '0' ++ digits

end Hex

/-! ## White space -/

namespace WhiteSpace

/-- Whether a character is white space. -/
def isWhite (c : Char) : Bool :=
  let n := c.toNat
  decide ((0x09 ≤ n ∧ n ≤ 0x0D) ∨ n = 0x20 ∨ n = 0x85 ∨ n = 0xA0 ∨ n = 0x1680
    ∨ (0x2000 ≤ n ∧ n ≤ 0x200A) ∨ n = 0x2028 ∨ n = 0x2029 ∨ n = 0x202F ∨ n = 0x205F ∨ n = 0x3000)

/-- A text without the white space around it. -/
def trim (cs : List Char) : List Char :=
  ((cs.dropWhile isWhite).reverse.dropWhile isWhite).reverse

end WhiteSpace

end StrictJson
