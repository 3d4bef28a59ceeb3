import StrictJson.Number.Text
import StrictJson.Options.Libraries
import StrictJson.Text.Digit

/-!
# Validating options

The validation that the running program uses. It is lenient: a datum that plainly denotes an integer
or a truth value is taken for it. It goes on after a mistake, and all mistakes are reported, those
of the fields first and in the order of the fields, then the unknown keys in the order given.
-/

namespace StrictJson

namespace Options

/-! ## Integers -/

/-- The text without its plus sign. No minus sign may follow the plus sign. -/
def withoutPlus : List Char → List Char
  | '+' :: '-' :: r => '+' :: '-' :: r
  | '+' :: r => r
  | cs => cs

/-- The text without the zeros that it begins with, and without the underscores among them. The last
of these characters stays if no other digit and no sign follows. -/
def withoutLeadingZeros : List Char → List Char
  | '0' :: r =>
    let (zeros, rest) := r.span fun c => c == '0' || c == '_'
    if rest.isEmpty || rest.head? == some '.' then zeros.getLast?.getD '0' :: rest else rest
  | cs => cs

/-- The text without its fraction, if that consists of zeros. -/
def withoutZeroFraction (cs : List Char) : List Char :=
  match cs.span (· != '.') with
  | (_, []) => cs
  | (whole, _ :: zeros) =>
    if !zeros.isEmpty && zeros.all (· == '0') then whole else cs

/-- The text without its underscores, if none of them stands at an end or beside another one. -/
def withoutUnderscores (cs : List Char) : List Char :=
  if cs.head? == some '_' || cs.getLast? == some '_' || (cs.zip cs.tail).contains ('_', '_') then cs
  else cs.filter (· != '_')

/-- The integer that a text denotes in plain notation: digits, which begin with zero only if there
is no other digit, and a minus sign or none in front. Too many places, of which the sign is one, are
a mistake of their own, whatever comes after them. -/
def plainInteger (cs : List Char) : Except Mistake Int :=
  let (negative, unsigned) := match cs with
    | '-' :: r => (true, r)
    | r => (false, r)
  let places := (unsigned.takeWhile Char.isDigit).length + if negative then 1 else 0
  if unsigned.head? != some '0' && decide (mostDigits < places) then .error .integerSize
  else
    match unsigned.mapM Digit.ascii? with
    | none | some [] | some (0 :: _ :: _) => .error .unreadableInteger
    | some ds => .ok (if negative then -(Digit.number ds : Int) else Digit.number ds)

/-- The integer that a text denotes. What is not in plain notation is read without the white space
around it, a plus sign, leading zeros, a fraction of zeros and single underscores, which go in this
order: so a minus sign may stand behind the leading zeros, but not before them. -/
def intOfText (cs : List Char) : Except Mistake Int :=
  match plainInteger cs with
  | .error .unreadableInteger =>
    plainInteger
      (withoutUnderscores
        (withoutZeroFraction (withoutLeadingZeros (withoutPlus (WhiteSpace.trim cs)))))
  | answer => answer

/-- The integer that a float is, within the range of 64 bits. -/
def intOfFloat (x : Binary64) : Except Mistake Int :=
  if x.isFinite then
    match x.toInt? with
    | none => .error .fractionalInteger
    | some n => if n.natAbs < Nat.pow 2 63 then .ok n else .error .integerSize
  else .error .notFinite

/-- The characters of a text datum. -/
def characters (unreadable : Mistake) : Datum → Except Mistake (Option (List Char))
  | .text cs =>
    match Utf8.decode (cs.flatMap Utf8.encode) with
    | some s => .ok (some s)
    | none => .error .surrogates
  | .octets bs =>
    match Utf8.decode bs with
    | some s => .ok (some s)
    | none => .error unreadable
  | _ => .ok none

/-- The integer that a datum denotes. -/
def intOf (d : Datum) : Except Mistake Int := do
  match ← characters .unreadableInteger d with
  | some cs => intOfText cs
  | none =>
    match d with
    | .boolean b => return if b then 1 else 0
    | .integer n => return n
    | .float x => intOfFloat x
    | _ => throw .notInteger

/-- The integer that a datum denotes, if it is not below `least`. -/
def intFrom (least : Int) (d : Datum) : Except Mistake Int := do
  let n ← intOf d
  if least ≤ n then return n else throw .tooSmall

/-! ## Truth values -/

/-- The truth value that a text denotes, in either case. -/
def truthOfText (cs : List Char) : Except Mistake Bool :=
  let word := String.ofList (cs.map Char.toLower)
  if ["0", "off", "f", "false", "n", "no"].contains word then .ok false
  else if ["1", "on", "t", "true", "y", "yes"].contains word then .ok true
  else .error .unreadableTruth

/-- Zero is false and one is true. -/
def truthOfInt (n : Int) : Except Mistake Bool :=
  if n = 0 then .ok false else if n = 1 then .ok true else .error .unreadableTruth

/-- The truth value that a datum denotes. -/
def truthOf (d : Datum) : Except Mistake Bool := do
  match ← characters .unreadableTruth d with
  | some cs => truthOfText cs
  | none =>
    match d with
    | .boolean b => return b
    | .integer n =>
      if -Int.pow 2 63 ≤ n ∧ n < Int.pow 2 63 then truthOfInt n else throw .notTruth
    | .float x =>
      match intOfFloat x with
      | .ok n => truthOfInt n
      | .error _ => throw .notTruth
    | _ => throw .notTruth

/-! ## Sections -/

/-- The datum of a field, if the field is given. -/
def field? (name : String) (entries : List (Datum × Datum)) : Option Datum :=
  (entries.find? fun e => e.1.isSameKey (Datum.ofString name)).map (·.2)

/-- Read what a field holds, or take its default. Complaints about it start with its name. -/
def readField {α : Type} (name : String) (read : Datum → Except (List Complaint) α) (absent : α)
    (entries : List (Datum × Datum)) : Except (List Complaint) α :=
  match field? name entries with
  | none => .ok absent
  | some d => (read d).mapError (List.map fun c => ⟨name :: c.path, c.mistake⟩)

/-- The text by which a complaint calls a key. -/
def keyLabel : Datum → String
  | .text cs => String.ofList (cs.flatMap Displayed.literal)
  | .boolean b => if b then "1" else "0"
  | d =>
    if d.isDisplayable then d.display Heap.empty else "<unprintable " ++ d.typeName ++ " object>"

/-- Whether a key is a text with surrogates. -/
def isIllFormedKey : Datum → Bool
  | .text cs => cs.any CodePoint.isSurrogate
  | _ => false

/-- A complaint for each key that is not the name of a field. -/
def strayKeys (names : List String) (entries : List (Datum × Datum)) : List Complaint :=
  entries.filterMap fun e =>
    match e.1 with
    | .text cs =>
      if names.any fun n => CodePoint.ofString n == cs then none
      else some ⟨[keyLabel e.1], .unknownKey⟩
    | k => some ⟨[keyLabel k], .keyNotText⟩

/-- The complaints of a field that has been read. -/
def complaints {α : Type} : Except (List Complaint) α → List Complaint
  | .ok _ => []
  | .error cs => cs

/-- Two readings, with the complaints of both. -/
def both {α β : Type} (x : Except (List Complaint) α) (y : Except (List Complaint) β) :
    Except (List Complaint) (α × β) :=
  match x, y with
  | .ok a, .ok b => .ok (a, b)
  | x, y => .error (complaints x ++ complaints y)

/-- What the fields of a section gave, unless the section has other keys. A key that is no
well-formed text is the only complaint. -/
def closeSection {α : Type} (names : List String) (entries : List (Datum × Datum))
    (read : Except (List Complaint) α) : Except (List Complaint) α :=
  match read, strayKeys names entries with
  | .ok a, [] => .ok a
  | read, strays =>
    if entries.any fun e => isIllFormedKey e.1 then .error [⟨[], .surrogates⟩]
    else .error (complaints read ++ strays)

/-- The complaint of a scalar, in which there can be one mistake. -/
def scalar {α : Type} (read : Except Mistake α) : Except (List Complaint) α :=
  read.mapError fun m => [⟨[], m⟩]

end Options

open Options

mutual

/-- Validate a datum as what a field is declared to hold. -/
def Declaration.validate (h : Heap) : (d : Declaration) → Datum → Except (List Complaint) d.Value
  | .integer least _, x => scalar (intFrom least x)
  | .truth _, x => scalar (truthOf x)
  | .model fields, .dict cell =>
    closeSection fields.names (h.entries cell) (fields.validate h (h.entries cell))
  | .model _, _ => .error [⟨[], .notSection⟩]

/-- Validate the fields of a section. -/
def Fields.validate (h : Heap) :
    (fs : Fields) → List (Datum × Datum) → Except (List Complaint) fs.Values
  | .nil, _ => .ok ()
  | .cons name field rest, entries =>
    both (readField name (field.validate h) field.absent entries) (rest.validate h entries)

end

/-- Validate the arguments of a call as the fields that they name. -/
def Fields.validateArguments (fs : Fields) (arguments : List (String × Datum)) :
    Except (List Complaint) fs.Values :=
  let entries := arguments.map fun a => (Datum.ofString a.1, a.2)
  closeSection fs.names entries (fs.validate Heap.empty entries)

end StrictJson
