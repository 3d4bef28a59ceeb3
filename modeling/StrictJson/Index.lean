import StrictJson.Number.Text

/-!
# Indices

An index is given as a number of any type. Booleans count as zero and one. A float is compared with
the size of an array like every number, but it denotes no place.
-/

namespace StrictJson

/-- A number given as an index. -/
inductive Index where
  | integer (n : Int)
  | boolean (b : Bool)
  | float (x : Binary64)

namespace Index

/-- How messages show an index. -/
def display : Index → String
  | integer n => String.ofList (integerText n)
  | boolean b => if b then "True" else "False"
  | float x => String.ofList x.display

/-- Whether messages can show an index. -/
def isDisplayable : Index → Bool
  | integer n => canShow n
  | _ => true

/-- The place that an index denotes, if it can denote one. -/
def place? : Index → Option Int
  | integer n => some n
  | boolean b => some (if b then 1 else 0)
  | float _ => none

/-- Whether a number is below zero or above an end, which itself may or may not be inside. -/
def isBeyond (hasEnd : Bool) (n stop : Int) : Bool :=
  decide (n < 0 ∨ stop < n) || (!hasEnd && n == stop)

/-- Whether an index is outside an array of a size. The size itself is inside where something can be
put at the end. What is no number is never outside. -/
def isOutside (hasEnd : Bool) (size : Nat) : Index → Bool
  | integer n => isBeyond hasEnd n size
  | boolean b => isBeyond hasEnd (if b then 1 else 0) size
  | float x =>
    if x.isNaN then false
    else if x.isFinite then isBeyond hasEnd x.units (size * Binary64.one : Nat)
    else true

end Index

end StrictJson
