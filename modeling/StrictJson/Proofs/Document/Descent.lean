import StrictJson.Document.Parser

/-!
# Reading by descent

The document machine keeps the open containers on a stack. Here documents are read by recursive
descent: one method for each part of the grammar, which moves a cursor over the octets and calls the
methods of the parts. A cursor is an offset, so nothing in it keeps a method from going back, from
reading where there is no octet, or from going on for ever. A single octet is therefore read through
`octetAt`, which fails behind the end, while runs of octets and slices stop there; loops and
recursion have a budget, and fail without. A method that fails leaves the cursor where it was at
that moment, and no method goes on behind one that failed.
-/

namespace StrictJson.Document.Descent

/-! ## Methods -/

/-- Why a method breaks off. -/
inductive Stop where
  /-- The document is rejected. -/
  | rejected (e : Rejection)
  /-- A bracket is missing with which a container was to begin. -/
  | noBracket (b : UInt8) (found : Found) (position : Nat)
  /-- An octet was to be read where the document has none. -/
  | outside
  /-- A budget is spent. -/
  | exhausted

/-- The stops that are defects of a method and no matter of the document. -/
def Stop.IsFault : Stop → Prop
  | outside => True
  | exhausted => True
  | _ => False

/-- A method works on the offset of the cursor. -/
abbrev Method (α : Type) : Type := ExceptT Stop (StateM Nat) α

variable {α σ : Type}

/-- What a method gives from an offset, and where it leaves the cursor. -/
def Method.from (m : Method α) (p : Nat) : Except Stop α × Nat :=
  (m.run.run p).run

/-- Reject the document for a violation. -/
def reject (position : Nat) (v : Violation) : Method α :=
  throw (.rejected ⟨.violation v, position⟩)

/-- Pass one octet. -/
def advance : Method Unit :=
  modify (· + 1)

/-- Repeat a body until it gives a result, as often as the budget allows. -/
def loop (body : σ → Method (σ ⊕ α)) : Nat → σ → Method α
  | 0, _ => throw .exhausted
  | n + 1, s => do
    match ← body s with
    | .inl s' => loop body n s'
    | .inr a => return a

section

variable (d : List UInt8)

/-- More steps than there are offsets. -/
def budget : Nat := d.length + 1

/-! ## Octets -/

/-- The octet at an offset. There must be one. -/
def octetAt (i : Nat) : Method UInt8 :=
  match d[i]? with
  | some b => return b
  | none => throw .outside

/-- The octet at an offset, which may be behind the end. -/
def lookAt (i : Nat) : Method (Option UInt8) :=
  if i < d.length then some <$> octetAt d i else return none

/-- The offset behind the octets that pass a test. -/
def skipFrom (test : UInt8 → Bool) (p : Nat) : Nat :=
  if h : p < d.length then
    if test d[p] then skipFrom test (p + 1) else p
  else p
termination_by d.length - p

/-- The octets between two offsets. -/
def slice (p q : Nat) : List UInt8 :=
  (d.drop p).take (q - p)

/-- Skip blanks. -/
def skipBlanks : Method Unit :=
  modify (skipFrom d Cursor.isBlank)

/-- The next octet that is no blank. -/
def peek : Method (Option UInt8) := do
  skipBlanks d
  lookAt d (← get)

/-- What stands at the cursor. -/
def found : Method Found := do
  match ← lookAt d (← get) with
  | some b => return .octet b
  | none => return .endOfInput

/-- Pass an octet that has to come next. -/
def expect (b : UInt8) (missing : Found → Nat → Stop) : Method Unit := do
  if (← peek d) = some b then advance else throw (missing (← found d) (← get))

/-! ## Lexemes -/

/-- Match the octets of a word one by one. -/
def matchOctets (w : Word) : List UInt8 → Method Unit
  | [] => return ()
  | e :: es => do
    if (← lookAt d (← get)) = some e then
      advance
      matchOctets w es
    else reject (← get) (.word w (← found d))

/-- The octets that may stand in a string for themselves. -/
def isPlain (b : UInt8) : Bool :=
  b != Literal.quote && b != Literal.backslash && decide (0x20 ≤ b.toNat)

/-- Read an escape whose backslash is at the cursor. -/
def readEscape : Method (List UInt8) := do
  let start ← get
  if d.length ≤ start + 1 then reject start .unterminatedEscape
  else
    let marker ← octetAt d (start + 1)
    if marker = Literal.unicodeMarker then
      match decodeHex4 d (start + 2) with
      | .ok n =>
        set (start + 6)
        return Utf8.encodeNat n
      | .error _ => reject (start + 2) .invalidUnicodeEscape
    else
      match Literal.simple? marker with
      | some b =>
        set (start + 2)
        return [b]
      | none => reject start .invalidEscape

/-- Read plain octets, and then an escape or the closing quote. -/
def stringStep (out : List UInt8) : Method (List UInt8 ⊕ List UInt8) := do
  let start ← get
  set (skipFrom d isPlain start)
  let p ← get
  let out := out ++ slice d start p
  if d.length ≤ p then reject p .unterminatedString
  else
    let b ← octetAt d p
    if b = Literal.quote then
      advance
      return .inr out
    else if b = Literal.backslash then return .inl (out ++ (← readEscape d))
    else reject p (.controlCharacter b)

/-- Read a string whose opening quote is at the cursor. -/
def readOctets : Method (List UInt8) := do
  advance
  loop (stringStep d) (budget d) []

/-- The text of a string that begins at an offset. -/
def decodeText (start : Nat) (bs : List UInt8) : Method String :=
  match Utf8.decode bs with
  | some cs => return String.ofList cs
  | none => throw (.rejected ⟨.malformedString, start⟩)

/-- Read a string as a text. -/
def readText : Method String := do
  let start ← get
  decodeText start (← readOctets d)

/-- A minus, if there is one. -/
def minusAt (p : Nat) : Method (Bool × Nat) := do
  if (← octetAt d p) = 0x2D then return (true, p + 1) else return (false, p)

/-- The digits from an offset on, and the offset behind them. -/
def digitsFrom (p : Nat) : List UInt8 × Nat :=
  (slice d p (skipFrom d isDigit p), skipFrom d isDigit p)

/-- Digits of which there must be one at least. -/
def digitsAt (v : Violation) (p : Nat) : Method (List UInt8 × Nat) := do
  if (← lookAt d p).any isDigit then return digitsFrom d p else reject p v

/-- The digits before the point. -/
def wholeAt (p : Nat) : Method (List UInt8 × Nat) := do
  if (← lookAt d p) = some 0x30 then
    if (← lookAt d (p + 1)).any isDigit then reject (p + 1) .leadingZero
    else return ([0x30], p + 1)
  else digitsAt d .noDigit p

/-- A point and the digits behind it, if there is a point. -/
def fractionAt (p : Nat) : Method (List UInt8 × Nat) := do
  if (← lookAt d p) = some 0x2E then digitsAt d .noFractionDigit (p + 1) else return ([], p)

/-- A sign, if there is one. -/
def signAt (p : Nat) : Method (Bool × Nat) := do
  let b ← lookAt d p
  if b = some 0x2D then return (true, p + 1)
  else if b = some 0x2B then return (false, p + 1)
  else return (false, p)

/-- An exponent, if there is one. -/
def exponentAt (p : Nat) : Method (Bool × List UInt8 × Nat) := do
  let b ← lookAt d p
  if b = some 0x65 ∨ b = some 0x45 then
    let (negative, q) ← signAt d (p + 1)
    return (negative, ← digitsAt d .noExponentDigit q)
  else return (false, [], p)

/-- The parts of a number. There must be an octet where it begins. -/
def numeralAt (p : Nat) : Method (Numeral × Nat) := do
  let (negative, p) ← minusAt d p
  let (whole, p) ← wholeAt d p
  let (fraction, p) ← fractionAt d p
  let (exponentNegative, exponent, p) ← exponentAt d p
  return (⟨negative, whole, fraction, exponentNegative, exponent⟩, p)

/-- Read a number whose first octet is at the cursor. The cursor moves when the whole number has
been found. -/
def readNumber : Method Binary64 := do
  let start ← get
  let (n, p) ← numeralAt d start
  set p
  match n.toBinary64? with
  | some x => return x
  | none => reject start .numberOutOfRange

/-! ## Values -/

variable (o : ParseOptions)

/-- Open one more container, if so many may be open. -/
def enter [Platform] (depth : Nat) : Method Unit := do
  if o.maxDepth < depth then reject (← get) (.tooDeep o.maxDepth)
  else if nestingLimit < depth then throw (.rejected ⟨.nestingLimit, ← get⟩)
  else return ()

/-- Read what is inside of a container and its close, which may come at once. -/
def readInside (close : UInt8) (empty : Tree) (body : σ → Method (σ ⊕ Tree)) (s : σ) :
    Method Tree := do
  if (← peek d) = some close then
    advance
    return empty
  else loop body (budget d) s

/-- Read the close of a container, which is then whole, or a comma, behind which it goes on. -/
def readSeparator (close : UInt8) (missing : Found → Violation) (s : σ) (whole : Tree) :
    Method (σ ⊕ Tree) := do
  let b ← peek d
  if b = some close then
    advance
    return .inr whole
  else if b = some 0x2C then
    advance
    return .inl s
  else reject (← get) (missing (← found d))

/-- Read an item and what separates it from the next. The items before it are given, the last of
them first. -/
def arrayStep (value : Method Tree) (items : List Tree) : Method (List Tree ⊕ Tree) := do
  let items := (← value) :: items
  readSeparator d 0x5D .itemEnd items (.array items.reverse)

/-- Read an array, of which `value` reads the items. -/
def readArray [Platform] (value : Nat → Method Tree) (depth : Nat) : Method Tree := do
  enter o depth
  expect d 0x5B (.noBracket 0x5B)
  readInside d 0x5D (.array []) (arrayStep d (value depth)) []

/-- Read a key. -/
def readKey : Method String := do
  if (← peek d) = some Literal.quote then readText d else reject (← get) (.key (← found d))

/-- Read a member and what separates it from the next. -/
def objectStep (value : Method Tree) (members : List (String × Tree)) :
    Method (List (String × Tree) ⊕ Tree) := do
  let k ← readKey d
  expect d 0x3A fun found p => .rejected ⟨.violation (.colon found), p⟩
  let members := Members.set k (← value) members
  readSeparator d 0x7D .memberEnd members (.object members)

/-- Read an object, of which `value` reads the values. -/
def readObject [Platform] (value : Nat → Method Tree) (depth : Nat) : Method Tree := do
  enter o depth
  expect d 0x7B (.noBracket 0x7B)
  readInside d 0x7D (.object []) (objectStep d (value depth)) []

/-- Read a word that stands for a scalar. -/
def readWord (w : Word) (t : Tree) : Method Tree := do
  matchOctets d w w.octets
  return t

/-- Read a value inside of `depth` containers. The budget is for the recursion. -/
def readValue [Platform] : Nat → Nat → Method Tree
  | 0, _ => throw .exhausted
  | n + 1, depth => do
    match ← peek d with
    | none => reject (← get) .unexpectedEnd
    | some b =>
      if b = Literal.quote then return .string (← readText d)
      else if b = 0x7B then readObject d o (readValue n) (depth + 1)
      else if b = 0x5B then readArray d o (readValue n) (depth + 1)
      else if b = 0x74 then readWord d .true (.boolean true)
      else if b = 0x66 then readWord d .false (.boolean false)
      else if b = 0x6E then readWord d .null .null
      else if b = 0x2D ∨ isDigit b = true then return .number (← readNumber d)
      else reject (← get) (.unexpected b)

/-- Read a value with nothing but blanks around it. -/
def readDocument [Platform] : Method Tree := do
  let t ← readValue d o (budget d) 0
  match ← peek d with
  | none => return t
  | some b => reject (← get) (.trailing b)

end

end StrictJson.Document.Descent
