import StrictJson.Number.Arithmetic
import StrictJson.Number.Decimal
import StrictJson.Number.Text
import StrictJson.Text.Digit

/-!
# Reading numbers leniently

Numbers in texts from outside may have white space around them, a sign, digits of any script and
underscores among the digits. Integers may be written in other bases, with or without the mark of
the base before the digits.
-/

namespace StrictJson

/-! ## Integers -/

/-- The value of a digit of any script, or of a letter that continues the digits beyond nine. -/
def digitInBase? (base : Nat) (c : Char) : Option Nat :=
  match (Digit.value? c).orElse fun _ => Hex.digitOfChar? c with
  | some d => if d < base then some d else none
  | none => none

/-- The letter that marks a base other than ten. -/
def baseMark? : Nat → Option Char
  | 2 => some 'b'
  | 8 => some 'o'
  | 16 => some 'x'
  | _ => none

/-- A text without the mark of its base. An underscore may stand behind the mark. -/
def withoutBaseMark (base : Nat) (cs : List Char) : List Char :=
  match cs with
  | '0' :: c :: r =>
    if baseMark? base == some c.toLower then
      match r with
      | '_' :: r => r
      | r => r
    else cs
  | cs => cs

/-- The number that an unsigned text denotes in a base. The digits of decimal numbers are limited in
number, those of numbers in the other bases are not. -/
def natOfText? (base : Nat) (cs : List Char) : Option Nat := do
  let ds ← Digit.grouped? (digitInBase? base) (withoutBaseMark base cs)
  if base = 10 ∧ mostDigits < ds.length then none
  else return ds.foldl (fun n d => n * base + d) 0

/-- The integer that a text denotes in a base. -/
def intOfText? (base : Nat) (cs : List Char) : Option Int :=
  Digit.signed? (natOfText? base) (WhiteSpace.trim cs)

/-! ## Doubles -/

/-- The values of the digits that a text begins with, and the text behind them. -/
def spanDigits : List Char → List Nat × List Char
  | [] => ([], [])
  | c :: r =>
    match Digit.value? c with
    | some d =>
      let (ds, rest) := spanDigits r
      (d :: ds, rest)
    | none => ([], c :: r)

/-- The exponent that a text consists of; without any text it is zero. -/
def exponentOfText? : List Char → Option Int
  | [] => some 0
  | e :: r =>
    if e == 'e' || e == 'E' then
      let digits? (cs : List Char) : Option Nat :=
        match spanDigits cs with
        | (d :: ds, []) => some (Digit.number (d :: ds))
        | _ => none
      Digit.signed? digits? r
    else none

/-- The decimal that an unsigned text denotes: digits with a point before, among or behind them, and
an exponent. -/
def decimalOfText? (cs : List Char) : Option Decimal :=
  let (whole, rest) := spanDigits cs
  let (fraction, rest) := match rest with
    | '.' :: r => spanDigits r
    | r => ([], r)
  if whole.isEmpty && fraction.isEmpty then none
  else
    (exponentOfText? rest).map fun e => ⟨Digit.number (whole ++ fraction), e - fraction.length⟩

/-- The double that an unsigned text denotes. The words for infinity and for no number count in
either case. -/
def unsignedDoubleOfText? (cs : List Char) : Option Binary64 :=
  let word := String.ofList (cs.map Char.toLower)
  if word == "inf" || word == "infinity" then some (Binary64.infinite false)
  else if word == "nan" then some Binary64.notANumber
  else (decimalOfText? cs).map fun d => Binary64.ofMagnitude false d.toMagnitude

/-- The double that a text denotes. -/
def doubleOfText? (cs : List Char) : Option Binary64 :=
  match WhiteSpace.trim cs with
  | '-' :: r => (unsignedDoubleOfText? r).map Binary64.neg
  | '+' :: r => unsignedDoubleOfText? r
  | r => unsignedDoubleOfText? r

end StrictJson
