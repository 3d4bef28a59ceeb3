import StrictJson.Number.Decimal

/-!
# The text of a number

Whole numbers are written with all their digits. Other numbers are written with the fewest digits
that read back, around a decimal point down to `10 ^ (-4)` and in scientific form below. Displayed
doubles differ from written ones where they are whole numbers.
-/

namespace StrictJson

/-- The text of a whole number. -/
def integerText (n : Int) : List Char :=
  if n < 0 then '-' :: Nat.toDigits 10 n.natAbs else Nat.toDigits 10 n.natAbs

/-- The most decimal digits that an integer may have in messages and in texts from outside. -/
def mostDigits : Nat := 4300

/-- Whether a message can show an integer. -/
def canShow (n : Int) : Bool :=
  decide (n.natAbs < Nat.pow 10 mostDigits)

namespace Decimal

/-- The least power of ten of the first digit that is still written around a decimal point. -/
def leastPositional : Int := -4

/-- The text of a decimal that is not a whole number. -/
def text (d : Decimal) : List Char :=
  if d.leadingExponent < leastPositional then d.scientific else d.positional

end Decimal

namespace Binary64

/-- The text of a double. Both zeros are written as the whole number they are. -/
def text (x : Binary64) : List Char :=
  if x.isNaN then "nan".toList
  else
    let sign := if x.negative then ['-'] else []
    if x.isFinite then
      match x.toInt? with
      | some n => integerText n
      | none => sign ++ (Decimal.shortest x.magnitude).text
    else sign ++ "inf".toList

/-- How a double is displayed. Whole numbers keep a fraction of zero and the sign of zero, and are
in scientific form from `10 ^ 16`. -/
def display (x : Binary64) : List Char :=
  match x.toInt? with
  | some n =>
    let sign := if x.negative then ['-'] else []
    if n.natAbs < Nat.pow 10 16 then sign ++ Nat.toDigits 10 n.natAbs ++ ['.', '0']
    else sign ++ (Decimal.shortest x.magnitude).scientific
  | none => x.text

end Binary64

end StrictJson
