import StrictJson.Number.Binary64

/-!
# Arithmetic of doubles

Sums and products are the exact ones, rounded to the nearest double. Where there is no exact result,
as for the difference of infinities, the result is no number.
-/

namespace StrictJson.Binary64

/-- The result of operations that have none. -/
def notANumber : Binary64 :=
  ofBits 0x7FF8000000000000

/-- The infinity of a sign. -/
def infinite (negative : Bool) : Binary64 :=
  ofMagnitude negative infinity

/-- The double of the opposite sign. -/
def neg (x : Binary64) : Binary64 :=
  { x with negative := !x.negative }

/-- The rounded sum. A sum of zero is positive, unless both operands are negative zeros. -/
def add (x y : Binary64) : Binary64 :=
  if x.isNaN || y.isNaN then notANumber
  else if !x.isFinite then
    if !y.isFinite && x.negative != y.negative then notANumber else x
  else if !y.isFinite then y
  else
    let n := x.units + y.units
    if n = 0 then ofMagnitude (x.negative && y.negative) 0
    else ofMagnitude (decide (n < 0)) (nearest n.natAbs 1)

/-- The rounded product. The product of an infinity and zero is no number. -/
def mul (x y : Binary64) : Binary64 :=
  let negative := x.negative != y.negative
  if x.isNaN || y.isNaN then notANumber
  else if x.isFinite && y.isFinite then
    ofMagnitude negative (nearest (unitsOf x.magnitude * unitsOf y.magnitude) one)
  else if x.magnitude = 0 || y.magnitude = 0 then notANumber
  else infinite negative

end StrictJson.Binary64
