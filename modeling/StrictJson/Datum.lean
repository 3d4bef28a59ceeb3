import StrictJson.Calendar
import StrictJson.Members
import StrictJson.Text.Raw

/-!
# Plain data

A datum is a value of the dynamic kinds that data are made of outside the library. Containers that
can change live in the cells of a heap, so that data can share them and can contain themselves; a
datum names the cell. A tuple cannot change, and is given by its items.
-/

namespace StrictJson

/-- A plain datum. Lists, sets and dictionaries are given by the number of their cell. -/
inductive Datum where
  | none
  | boolean (b : Bool)
  | integer (n : Int)
  | float (x : Binary64)
  | text (cs : List CodePoint)
  | octets (bs : List UInt8)
  | date (d : Date)
  | moment (m : Moment)
  | tuple (items : List Datum)
  | list (cell : Nat)
  | set (cell : Nat)
  | dict (cell : Nat)

/-- The contents of a container. -/
inductive Cell where
  | items (ds : List Datum)
  | entries (es : List (Datum × Datum))

/-- The containers that data refer to. -/
structure Heap where
  cells : Array Cell

namespace Heap

/-- No containers. -/
def empty : Heap := ⟨#[]⟩

/-- Add a container; the result names its cell. -/
def alloc (h : Heap) (c : Cell) : Nat × Heap :=
  (h.cells.size, ⟨h.cells.push c⟩)

/-- Change the contents of a container. -/
def put (h : Heap) (cell : Nat) (c : Cell) : Heap :=
  ⟨h.cells.setIfInBounds cell c⟩

/-- The items of a list or a set. -/
def items (h : Heap) (cell : Nat) : List Datum :=
  match h.cells[cell]? with
  | some (.items ds) => ds
  | _ => []

/-- The keys and values of a dictionary. -/
def entries (h : Heap) (cell : Nat) : List (Datum × Datum) :=
  match h.cells[cell]? with
  | some (.entries es) => es
  | _ => []

end Heap

namespace Datum

/-- The name by which messages call the type of a datum. -/
def typeName : Datum → String
  | none => "NoneType"
  | boolean _ => "bool"
  | integer _ => "int"
  | float _ => "float"
  | text _ => "str"
  | octets _ => "bytes"
  | date _ => "date"
  | moment _ => "datetime"
  | tuple _ => "tuple"
  | list _ => "list"
  | set _ => "set"
  | dict _ => "dict"

/-- The text datum of a string. -/
def ofString (s : String) : Datum :=
  text (CodePoint.ofString s)

/-- The value of a number in units of `2 ^ (-1074)`. Booleans count as zero and one. -/
def numericUnits? : Datum → Option Int
  | boolean b => some (if b then Binary64.one else 0)
  | integer n => some (n * Binary64.one)
  | float x => if x.isFinite then some x.units else .none
  | _ => .none

/-! ## Keys -/

mutual

/-- Whether a datum can be a key of a dictionary or an item of a set: it must not contain anything
that can change. -/
def isKey : Datum → Bool
  | tuple items => areKeys items
  | list _ => false
  | set _ => false
  | dict _ => false
  | _ => true

/-- Whether all data can be keys. -/
def areKeys : List Datum → Bool
  | [] => true
  | d :: r => d.isKey && areKeys r

end

mutual

/-- Whether two data are one and the same key of a dictionary. Numbers are compared by value. -/
def isSameKey : Datum → Datum → Bool
  | none, none => true
  | text cs, text ds => cs == ds
  | octets bs, octets cs => bs == cs
  | date d, date e => d == e
  | moment m, moment n => m.isSame n
  | tuple ds, tuple es => areSameKeys ds es
  | float x, float y =>
    if x.isFinite && y.isFinite then x.units == y.units else !x.isNaN && x == y
  | d, e =>
    match d.numericUnits?, e.numericUnits? with
    | some m, some n => m == n
    | _, _ => false

/-- Whether data are the same keys one by one. -/
def areSameKeys : List Datum → List Datum → Bool
  | [], [] => true
  | d :: ds, e :: es => d.isSameKey e && areSameKeys ds es
  | _, _ => false

end

/-- The entries that result from setting keys one after the other. A repeated key keeps its first
place and takes the last value. -/
def dictEntries {α : Type} (ps : List (Datum × α)) : List (Datum × α) :=
  ps.foldl (fun es p => Members.setBy isSameKey p.1 p.2 es) []

/-! ## Payloads of values -/

/-- The truth value of a datum, as a boolean value needs it. -/
def toBoolean : Datum → Except Failure Bool
  | boolean b => .ok b
  | d => .error (.booleanRequired d.typeName)

/-- The double of a datum, as a number value needs it: finite, and the nearest to an integer. -/
def toNumber : Datum → Except Failure Binary64
  | integer n =>
    let x := Binary64.ofInt n
    if x.isFinite then .ok x else .error (.ofLargeInteger n)
  | float x => if x.isFinite then .ok x else .error (.numberNotFinite x)
  | d => .error (.numberRequired d.typeName)

/-- The text of a datum, as a string value needs it. -/
def toText : Datum → Except Failure String
  | text cs => (RawText.codePoints cs).toText
  | octets bs => (RawText.octets bs).toText
  | d => .error (.textRequired d.typeName)

/-- The text of a datum, as an object key needs it. -/
def toKey : Datum → Except Failure String
  | text cs => (RawText.codePoints cs).toText
  | octets bs => (RawText.octets bs).toText
  | d => .error (.keyTextRequired d.typeName)

/-- The number that a datum gives as an index. -/
def toIndex? : Datum → Option Index
  | integer n => some (.integer n)
  | boolean b => some (.boolean b)
  | float x => some (.float x)
  | _ => .none

/-! ## Octets -/

/-- The octet that a datum gives. -/
def toOctet : Datum → Except Failure UInt8
  | integer n => if 0 ≤ n ∧ n < 256 then .ok (UInt8.ofNat n.toNat) else .error .octetOutOfRange
  | boolean b => .ok (if b then 1 else 0)
  | _ => .error .notOctets

/-- As many zero octets as a number says. -/
def zeroOctets (n : Int) : Except Failure RawText :=
  if Int.pow 2 63 ≤ n then .error .tooManyOctets
  else if n < 0 then .error .octetOutOfRange
  else .ok (.octets (List.replicate n.toNat 0))

/-- The text that a datum gives where every datum is taken for a text: what is none gives its items
as octets, or a number of zeros. -/
def toRawText (h : Heap) : Datum → Except Failure RawText
  | text cs => .ok (.codePoints cs)
  | octets bs => .ok (.octets bs)
  | integer n => zeroOctets n
  | boolean b => zeroOctets (if b then 1 else 0)
  | tuple items => (items.mapM toOctet).map .octets
  | list cell => ((h.items cell).mapM toOctet).map .octets
  | set cell => ((h.items cell).mapM toOctet).map .octets
  | dict cell => ((h.entries cell).mapM fun e => toOctet e.1).map .octets
  | _ => .error .notOctets

/-! ## Display -/

/-- Texts with commas and spaces between them. -/
def commaSeparated (texts : List String) : String :=
  ", ".intercalate texts

/-- How a datum is displayed. `budget` bounds the nesting, and `path` names the containers around
the datum: one that is met again inside itself is shown as an ellipsis in brackets. -/
def displayWithin (h : Heap) : Nat → List Nat → Datum → String
  | 0, _, _ => "..."
  | budget + 1, path, d =>
    match d with
    | none => "None"
    | boolean b => if b then "True" else "False"
    | integer n => String.ofList (integerText n)
    | float x => String.ofList x.display
    | text cs => Displayed.quoted cs
    | octets bs => Displayed.quotedOctets bs
    | date d => d.display
    | moment m => m.display
    | tuple [item] => "(" ++ displayWithin h budget path item ++ ",)"
    | tuple items => "(" ++ commaSeparated (items.map (displayWithin h budget path)) ++ ")"
    | list cell =>
      if path.contains cell then "[...]"
      else "[" ++ commaSeparated ((h.items cell).map (displayWithin h budget (cell :: path))) ++ "]"
    | set cell =>
      let items := (h.items cell).map (displayWithin h budget (cell :: path))
      if items.isEmpty then "set()" else "\x7b" ++ commaSeparated items ++ "\x7d"
    | dict cell =>
      if path.contains cell then "\x7b...\x7d"
      else
        let entry (e : Datum × Datum) : String :=
          displayWithin h budget (cell :: path) e.1 ++ ": "
            ++ displayWithin h budget (cell :: path) e.2
        "\x7b" ++ commaSeparated ((h.entries cell).map entry) ++ "\x7d"

/-- How a datum is displayed. -/
def display (h : Heap) (d : Datum) : String :=
  displayWithin h 1000 [] d

mutual

/-- Whether a key can be displayed. It must not contain an integer of too many digits. -/
def isDisplayable : Datum → Bool
  | integer n => canShow n
  | tuple items => areDisplayable items
  | _ => true

/-- Whether all keys can be displayed. -/
def areDisplayable : List Datum → Bool
  | [] => true
  | d :: r => d.isDisplayable && areDisplayable r

end

end Datum

end StrictJson
