/-!
# Double-precision numbers

A double is a sign and a 63-bit magnitude, the lower bits of its 64-bit pattern. Magnitudes below
that of infinity are the finite doubles in increasing order, so neighbouring doubles have
neighbouring magnitudes. The absolute value of a finite double is a whole number of units of
`2 ^ (-1074)`, the least positive double.
-/

namespace StrictJson

/-- A double-precision number, given by its bit pattern. -/
structure Binary64 where
  negative : Bool
  magnitude : Nat
  magnitude_lt : magnitude < Nat.pow 2 63
deriving DecidableEq

namespace Binary64

/-- The double whose bit pattern is the lower 64 bits of `bits`. -/
def ofBits (bits : Nat) : Binary64 where
  negative := bits / Nat.pow 2 63 % 2 == 1
  magnitude := bits % Nat.pow 2 63
  magnitude_lt := Nat.mod_lt _ (by decide)

/-- The 64-bit pattern of a double. -/
def toBits (x : Binary64) : Nat :=
  (if x.negative then Nat.pow 2 63 else 0) + x.magnitude

/-- The magnitude of the infinities. Larger magnitudes are no numbers. -/
def infinity : Nat := 2047 * Nat.pow 2 52

/-- Whether the double is a number other than the infinities. -/
def isFinite (x : Binary64) : Bool :=
  decide (x.magnitude < infinity)

/-- Whether the double is no number at all. -/
def isNaN (x : Binary64) : Bool :=
  decide (infinity < x.magnitude)

/-- The double with the given sign and magnitude; magnitudes beyond infinity become infinity. -/
def ofMagnitude (negative : Bool) (m : Nat) : Binary64 where
  negative := negative
  magnitude := min m infinity
  magnitude_lt := Nat.lt_of_le_of_lt (Nat.min_le_right _ _) (by decide)

/-- The absolute value of the finite double of magnitude `m`, in units of `2 ^ (-1074)`.

Below `2 ^ 52` the magnitude is the value. Above, the lower 52 bits follow a leading one, and each
step of the upper bits doubles the value. -/
def unitsOf (m : Nat) : Nat :=
  if m < Nat.pow 2 52 then m
  else (Nat.pow 2 52 + m % Nat.pow 2 52) * Nat.pow 2 (m / Nat.pow 2 52 - 1)

/-- The value of a finite double in units of `2 ^ (-1074)`. -/
def units (x : Binary64) : Int :=
  if x.negative then -(unitsOf x.magnitude : Int) else unitsOf x.magnitude

/-- The number of units in one. -/
def one : Nat := Nat.pow 2 1074

/-- The magnitude of the double nearest to `num / den` units; a tie goes to the even magnitude.

`shift` is the number of binary digits that do not fit into 53, and `grain` the distance of
neighbouring doubles there. Rounding up past the last 53-digit number carries into the exponent
without further ado. A result of `infinity` or more means that the number is too large. -/
def nearest (num den : Nat) : Nat :=
  let shift := (num / den).log2 - 52
  let grain := den * Nat.pow 2 shift
  let quotient := num / grain
  let remainder := num % grain
  let up := grain < 2 * remainder ∨ (2 * remainder = grain ∧ quotient % 2 = 1)
  shift * Nat.pow 2 52 + (if up then quotient + 1 else quotient)

/-- The double nearest to a whole number; an infinity when the number is too large. -/
def ofInt (n : Int) : Binary64 :=
  ofMagnitude (decide (n < 0)) (nearest (n.natAbs * one) 1)

/-- The whole number that a finite double is, if it is one. -/
def toInt? (x : Binary64) : Option Int :=
  if x.isFinite && unitsOf x.magnitude % one == 0 then
    let n : Int := (unitsOf x.magnitude / one : Nat)
    some (if x.negative then -n else n)
  else
    none

/-- Whether the rounded distance of two finite doubles is below `10 ^ (-12)`, rounded likewise. -/
def isClose (x y : Binary64) : Bool :=
  decide (nearest (x.units - y.units).natAbs 1 < nearest one (Nat.pow 10 12))

end Binary64

end StrictJson
