/-!
# Code points

Text that arrives from outside is a sequence of code points, and these may be surrogates, which are
no characters. Text inside the library is a `String`, which holds characters only.
-/

namespace StrictJson

/-- A Unicode code point: a number up to 10FFFF, surrogates included. -/
abbrev CodePoint := Fin 0x110000

namespace CodePoint

/-- The surrogates are the code points from D800 to DFFF. -/
def isSurrogate (c : CodePoint) : Bool :=
  decide (0xD800 ≤ c.val ∧ c.val ≤ 0xDFFF)

/-- A character is a code point. -/
def ofChar (c : Char) : CodePoint :=
  ⟨c.toNat, by
    have h := c.valid
    simp only [UInt32.isValidChar, Nat.isValidChar] at h
    show c.val.toNat < 0x110000
    omega⟩

/-- The code points of a text. -/
def ofString (s : String) : List CodePoint :=
  s.toList.map ofChar

end CodePoint

/-- The character with the number `n`; surrogates and numbers above 10FFFF have none. -/
def scalar? (n : Nat) : Option Char :=
  if h : n.isValidChar then some (Char.ofNatAux n h) else none

end StrictJson
