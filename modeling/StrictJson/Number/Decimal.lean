import StrictJson.Number.Binary64

/-!
# Decimal numbers

A decimal is a coefficient and a power of ten. `toMagnitude` rounds it to the nearest double, ties
to even. `shortest` is the other direction: of the decimals that read back as a given double it
takes one on the coarsest grid of powers of ten, and on that grid the nearest.
-/

namespace StrictJson

/-- The number `coefficient * 10 ^ exponent`. -/
structure Decimal where
  coefficient : Nat
  exponent : Int
deriving DecidableEq

namespace Decimal

/-- The magnitude of the double nearest to a decimal; `Binary64.infinity` or more if there is none.

Powers of ten past `10 ^ 310` exceed every double, and a value below half of the least positive
double rounds to zero. Neither has to be computed, however large the exponent is. -/
def toMagnitude (d : Decimal) : Nat :=
  if d.coefficient = 0 then 0
  else match d.exponent with
    | .ofNat e =>
      if 310 < e then Binary64.infinity
      else Binary64.nearest (d.coefficient * Nat.pow 10 e * Binary64.one) 1
    | .negSucc e =>
      if d.coefficient.log2 + 1080 ≤ 3 * (e + 1) then 0
      else Binary64.nearest (d.coefficient * Binary64.one) (Nat.pow 10 (e + 1))

/-- The value of the finite double of magnitude `m` as a fraction, in steps of `10 ^ g`. -/
def stepsOf (m : Nat) : Int → Nat × Nat
  | .ofNat g => (Binary64.unitsOf m, Binary64.one * Nat.pow 10 g)
  | .negSucc g => (Binary64.unitsOf m * Nat.pow 10 (g + 1), Binary64.one)

/-- The multiple of `10 ^ g` that reads back as the double of magnitude `m`, if there is one.

Only the two neighbours of the value can. Of two the nearer is taken, and of two equally near the
one with the even last digit. -/
def onGrid? (m : Nat) (g : Int) : Option Nat :=
  let (num, den) := stepsOf m g
  let below := num / den
  let rest := num % den
  let readsBack (c : Nat) : Bool := toMagnitude ⟨c, g⟩ == m
  match readsBack below, readsBack (below + 1) with
  | true, true =>
    if 2 * rest < den ∨ (2 * rest = den ∧ below % 2 = 0) then some below else some (below + 1)
  | true, false => some below
  | false, true => some (below + 1)
  | false, false => none

/-- Search the grids `10 ^ (k - 1074)`, `10 ^ (k - 1 - 1074)`, … for the first that has a hit. On
the last of them every finite double is exact. -/
def firstHit (m : Nat) : Nat → Decimal
  | 0 => ⟨Binary64.unitsOf m * Nat.pow 5 1074, -1074⟩
  | k + 1 =>
    match onGrid? m (k + 1 - 1074) with
    | some c => ⟨c, k + 1 - 1074⟩
    | none => firstHit m k

/-- A decimal with the fewest digits that reads back as the finite double of magnitude `m`.

Every double is below `10 ^ 309`, so no coarser grid has a hit. -/
def shortest (m : Nat) : Decimal :=
  firstHit m (309 + 1074)

/-- The digits of the coefficient. -/
def digits (d : Decimal) : List Char :=
  Nat.toDigits 10 d.coefficient

/-- The power of ten of the first digit. -/
def leadingExponent (d : Decimal) : Int :=
  d.exponent + d.digits.length - 1

/-- All digits of the number around a decimal point, which is left out of whole numbers. -/
def positional (d : Decimal) : List Char :=
  match d.exponent with
  | .ofNat e => d.digits ++ List.replicate e '0'
  | .negSucc e =>
    let places := e + 1
    let padded := List.replicate (places + 1 - d.digits.length) '0' ++ d.digits
    padded.take (padded.length - places) ++ '.' :: padded.drop (padded.length - places)

/-- One digit before the decimal point, and an exponent of at least two digits. The point is left
out where no digit follows it. -/
def scientific (d : Decimal) : List Char :=
  let e := d.leadingExponent
  let point := if d.digits.length = 1 then [] else ['.']
  let exponent := Nat.toDigits 10 e.natAbs
  d.digits.take 1 ++ point ++ d.digits.drop 1 ++ 'e' :: (if e < 0 then '-' else '+')
    :: (List.replicate (2 - exponent.length) '0' ++ exponent)

end Decimal

end StrictJson
