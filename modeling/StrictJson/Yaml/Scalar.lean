import StrictJson.Calendar
import StrictJson.Number.Reading
import StrictJson.Text.Base64
import StrictJson.Yaml.Node

/-!
# Scalars

A plain scalar without a tag is given one by its form. The value of a scalar depends on its tag
alone, and may be written in more forms than those that give the tag.
-/

namespace StrictJson.Yaml.Scalar

/-- The characters of a text without surrogates. -/
def characters? (text : List CodePoint) : Option (List Char) :=
  text.mapM fun c => scalar? c.val

/-- The parts of a text between colons. -/
def colonParts (cs : List Char) : List (List Char) :=
  cs.foldr
    (fun c parts =>
      if c == ':' then [] :: parts
      else match parts with
        | part :: more => (c :: part) :: more
        | [] => [[c]])
    [[]]

/-- A text without its sign, and whether that is a minus sign. -/
def splitSign : List Char → Bool × List Char
  | '-' :: r => (true, r)
  | '+' :: r => (false, r)
  | r => (false, r)

/-! ## Moments -/

/-- Up to `most` digits at the beginning of a text, but `least` at least, and the text behind
them. -/
def digits? (least most : Nat) (cs : List Char) : Option (Nat × List Char) :=
  let ds := (cs.take most).takeWhile Char.isDigit
  if ds.length < least then none
  else some (ds.foldl (fun n c => n * 10 + (c.toNat - 0x30)) 0, cs.drop ds.length)

/-- The text behind a character. -/
def behind? (c : Char) : List Char → Option (List Char)
  | d :: r => if c = d then some r else none
  | [] => none

/-- The date at the beginning of a text, and the text behind it. -/
def date? (cs : List Char) : Option (Date × List Char) := do
  let (year, r) ← digits? 4 4 cs
  let (month, r) ← digits? 1 2 (← behind? '-' r)
  let (day, r) ← digits? 1 2 (← behind? '-' r)
  return (⟨year, month, day⟩, r)

/-- The text behind the blanks or the letter between a date and a time. -/
def behindTimeMark? : List Char → Option (List Char)
  | 'T' :: r => some r
  | 't' :: r => some r
  | c :: r =>
    if c = ' ' ∨ c = '\t' then some (r.dropWhile fun c => c == ' ' || c == '\t') else none
  | [] => none

/-- The microseconds that a text begins with, and the text behind them. Digits beyond the sixth do
not count. -/
def fraction : List Char → Nat × List Char
  | '.' :: r =>
    let ds := (r.takeWhile Char.isDigit).take 6
    (ds.foldl (fun n c => n * 10 + (c.toNat - 0x30)) 0 * Nat.pow 10 (6 - ds.length),
      r.dropWhile Char.isDigit)
  | r => (0, r)

/-- The offset that a text denotes, if it denotes any. Blanks may be before it. -/
def offset? (cs : List Char) : Option (Option Int) :=
  let amount? (cs : List Char) : Option Int := do
    let (hours, r) ← digits? 1 2 cs
    if r.isEmpty then return (hours * 60 : Nat)
    else
      let (minutes, r) ← digits? 2 2 (← behind? ':' r)
      if r.isEmpty then return (hours * 60 + minutes : Nat) else none
  if cs.isEmpty then some none
  else
    match cs.dropWhile fun c => c == ' ' || c == '\t' with
    | ['Z'] => some (some 0)
    | '+' :: r => (amount? r).map some
    | '-' :: r => (amount? r).map fun n => some (-n)
    | _ => none

/-- The time of a day that a text denotes, on a date. -/
def moment? (date : Date) (cs : List Char) : Option Moment := do
  let (hour, r) ← digits? 1 2 (← behindTimeMark? cs)
  let (minute, r) ← digits? 2 2 (← behind? ':' r)
  let (second, r) ← digits? 2 2 (← behind? ':' r)
  let (microsecond, r) := fraction r
  return {
    date := date
    hour := hour
    minute := minute
    second := second
    microsecond := microsecond
    offset := ← offset? r }

/-- The date or the moment that a text has the form of. -/
def dateOrMoment? (cs : List Char) : Option (Date ⊕ Moment) := do
  let (date, r) ← date? cs
  if r.isEmpty then return .inl date else return .inr (← moment? date r)

/-! ## The tags of plain scalars -/

/-- A text without a line break at its end, which counts for the form of no scalar. -/
def withoutFinalBreak (cs : List Char) : List Char :=
  if cs.getLast? == some '\n' then cs.dropLast else cs

/-- Whether a text is not empty and has only characters of a class. -/
def isRunOf (p : Char → Bool) (cs : List Char) : Bool :=
  !cs.isEmpty && cs.all p

/-- Whether a character is a digit or an underscore. -/
def isDigitOrUnderscore (c : Char) : Bool :=
  c.isDigit || c == '_'

/-- Whether a text consists of digits and underscores and begins with a digit. -/
def isWhole : List Char → Bool
  | [] => false
  | c :: r => c.isDigit && r.all isDigitOrUnderscore

/-- Whether a text is a digit in base 60. -/
def isSexagesimalDigit : List Char → Bool
  | [c] => c.isDigit
  | [c, d] => decide ('0' ≤ c ∧ c ≤ '5') && d.isDigit
  | _ => false

/-- Whether a text has the form of an integer, apart from its sign. -/
def isIntegerForm : List Char → Bool
  | '0' :: 'b' :: r => isRunOf (fun c => c == '0' || c == '1' || c == '_') r
  | '0' :: 'x' :: r => isRunOf (fun c => (Hex.digitOfChar? c).isSome || c == '_') r
  | '0' :: r => r.all fun c => decide ('0' ≤ c ∧ c ≤ '7') || c == '_'
  | cs =>
    match colonParts cs with
    | first :: more => isWhole first && more.all isSexagesimalDigit
    | [] => false

/-- Whether a text is empty or has the form of an exponent, which needs a sign. -/
def isExponentForm : List Char → Bool
  | [] => true
  | e :: sign :: r =>
    (e == 'e' || e == 'E') && (sign == '-' || sign == '+') && isRunOf Char.isDigit r
  | _ => false

/-- Whether a text has the form of a float, apart from its sign. -/
def isFloatForm (cs : List Char) : Bool :=
  match cs.span (· != '.') with
  | (_, []) => false
  | (whole, _ :: r) =>
    match colonParts whole with
    | [] => false
    | [whole] =>
      isWhole whole && isExponentForm (r.dropWhile isDigitOrUnderscore)
    | first :: more =>
      isWhole first && more.all isSexagesimalDigit && r.all isDigitOrUnderscore

/-- Whether a text has the form of a float that goes without a sign. -/
def isUnsignedFloatForm : List Char → Bool
  | '.' :: c :: r =>
    [".nan", ".NaN", ".NAN"].contains (String.ofList ('.' :: c :: r))
      || (c.isDigit && isExponentForm (r.dropWhile isDigitOrUnderscore))
  | _ => false

/-- Whether a text has the form of a date, or of a moment. A date alone has no digit left out. -/
def isMomentForm (cs : List Char) : Bool :=
  match dateOrMoment? cs with
  | some (.inl _) => cs.length == 10
  | some (.inr _) => true
  | none => false

/-- The words that are no text. -/
def words : List (String × Tag) :=
  (["~", "null", "Null", "NULL"].map (·, .null))
    ++ (["yes", "Yes", "YES", "no", "No", "NO", "true", "True", "TRUE", "false", "False", "FALSE",
      "on", "On", "ON", "off", "Off", "OFF"].map (·, .boolean))
    ++ [("<<", .merge), ("=", .default), ("!", .unknown), ("&", .unknown), ("*", .unknown)]

/-- The tag of a plain scalar that is not empty. -/
def tagOfForm (cs : List Char) : Tag :=
  let unsigned := (splitSign cs).2
  match words.lookup (String.ofList cs) with
  | some t => t
  | none =>
    if isIntegerForm unsigned then .integer
    else if isFloatForm unsigned || isUnsignedFloatForm cs
        || [".inf", ".Inf", ".INF"].contains (String.ofList unsigned) then .float
    else if isMomentForm cs then .moment
    else .text

/-- The tag that a scalar has by its form. -/
def tagOf (text : List CodePoint) : Tag :=
  if text.isEmpty then .null
  else
    match characters? text with
    | some cs =>
      let cs := withoutFinalBreak cs
      if cs.isEmpty then .text else tagOfForm cs
    | none => .text

/-! ## Values -/

/-- The integer that digits in base 60 denote, of which each is an integer on its own. -/
def sexagesimal? (cs : List Char) : Option Int :=
  ((colonParts cs).mapM (intOfText? 10)).map fun ds => ds.foldl (fun n d => n * 60 + d) 0

/-- The integer that a text without a sign denotes. What begins with zero is octal, if it does not
begin with the mark of another base. -/
def unsignedInteger (cs : List Char) : Except Defect Int :=
  let value? := match cs with
    | '0' :: 'b' :: r => intOfText? 2 r
    | '0' :: 'x' :: r => intOfText? 16 r
    | '0' :: _ => intOfText? 8 cs
    | _ => if cs.contains ':' then sexagesimal? cs else intOfText? 10 cs
  match value? with
  | some n => .ok n
  | none => .error (if cs.isEmpty then .emptyNumber else .outOfRange)

/-- The integer that a text denotes. Underscores do not count. -/
def integer (text : List CodePoint) : Except Defect Int :=
  match characters? text with
  | none => .error .outOfRange
  | some cs =>
    match splitSign (cs.filter (· != '_')) with
    | (true, r) => (unsignedInteger r).map fun n => -n
    | (false, r) => unsignedInteger r

/-- The sum of doubles that are digits in base 60, from the last on. `weight` is that of the
next. -/
def sumSexagesimal (weight : Nat) (sum : Binary64) : List Binary64 → Except Defect Binary64
  | [] => .ok sum
  | x :: r =>
    let w := Binary64.ofInt weight
    if w.isFinite then sumSexagesimal (weight * 60) (sum.add (x.mul w)) r else .error .overflow

/-- The double that a text without a sign denotes. -/
def unsignedFloat (cs : List Char) : Except Defect Binary64 :=
  if cs == ".inf".toList then .ok (Binary64.infinite false)
  else if cs.contains ':' then
    match (colonParts cs).mapM doubleOfText? with
    | some xs => sumSexagesimal 1 (Binary64.ofMagnitude false 0) xs.reverse
    | none => .error .outOfRange
  else
    match doubleOfText? cs with
    | some x => .ok x
    | none => .error .outOfRange

/-- Whether a text is the word for no number, as scalars write it. -/
def isNotANumber (text : List CodePoint) : Bool :=
  match characters? text with
  | some cs => (splitSign ((cs.filter (· != '_')).map Char.toLower)).2 == ".nan".toList
  | none => false

/-- The double that a text denotes. Underscores do not count. -/
def float (text : List CodePoint) : Except Defect Binary64 :=
  match characters? text with
  | none => .error .outOfRange
  | some cs =>
    let cs := (cs.filter (· != '_')).map Char.toLower
    if cs.isEmpty then .error .emptyNumber
    else if isNotANumber text then .ok Binary64.notANumber
    else
      match splitSign cs with
      | (true, r) => (unsignedFloat r).map Binary64.neg
      | (false, r) => unsignedFloat r

/-- The truth value that a text denotes, in either case. -/
def boolean (text : List CodePoint) : Except Defect Bool :=
  match characters? text with
  | none => .error .notTruth
  | some cs =>
    let word := String.ofList (cs.map Char.toLower)
    if ["yes", "true", "on"].contains word then .ok true
    else if ["no", "false", "off"].contains word then .ok false
    else .error .notTruth

/-- The date or the moment that a text denotes. -/
def dateOrMoment (text : List CodePoint) : Except Defect (Date ⊕ Moment) :=
  match (characters? text).bind fun cs => dateOrMoment? (withoutFinalBreak cs) with
  | none => .error .notMoment
  | some (.inl d) => if d.isValid then .ok (.inl d) else .error .outOfRange
  | some (.inr m) => if m.isValid then .ok (.inr m) else .error .outOfRange

/-- The octets that a text denotes. It has to be ASCII. -/
def binary (text : List CodePoint) : Except Malformation (List UInt8) :=
  match characters? text with
  | some cs =>
    if cs.all fun c => decide (c.toNat < 0x80) then
      match Base64.decode cs with
      | some bs => .ok bs
      | none => .error .badBase64
    else .error .badBase64
  | none => .error .badBase64

end StrictJson.Yaml.Scalar
