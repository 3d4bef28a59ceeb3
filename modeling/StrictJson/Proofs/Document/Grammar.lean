import StrictJson.Document.Lexeme
import StrictJson.Proofs.Number.Rounding
import StrictJson.Tree

/-!
# The grammar of documents

`Expr` is the abstract syntax of a document. `Expr.Spells` says which octets spell it, blanks
between lexemes included, and `Expr.Denotes` which tree it means. What is spelled right may still
mean nothing: `Expr.IsMeaningful` excludes malformed text, escapes of surrogates and numbers beyond
all doubles.
-/

namespace StrictJson

open Binary64 (IsNearest)

namespace Document

/-! ## Strings -/

/-- The escapes of one character. -/
inductive ShortEscape where
  | quote
  | backslash
  | slash
  | backspace
  | formFeed
  | lineFeed
  | carriageReturn
  | tab

/-- The octet behind the backslash. -/
def ShortEscape.marker : ShortEscape → UInt8
  | quote => 0x22
  | backslash => 0x5C
  | slash => 0x2F
  | backspace => 0x62
  | formFeed => 0x66
  | lineFeed => 0x6E
  | carriageReturn => 0x72
  | tab => 0x74

/-- The character that is meant. -/
def ShortEscape.char : ShortEscape → Char
  | quote => '"'
  | backslash => '\\'
  | slash => '/'
  | backspace => '\x08'
  | formFeed => '\x0C'
  | lineFeed => '\n'
  | carriageReturn => '\r'
  | tab => '\t'

/-- What a string consists of between its quotes: octets that stand for themselves, and escapes. -/
inductive Piece where
  | plain (b : UInt8)
  | short (e : ShortEscape)
  | unicode (h₁ h₂ h₃ h₄ : UInt8)

namespace Piece

/-- The spelling of a piece. -/
def octets : Piece → List UInt8
  | plain b => [b]
  | short e => [0x5C, e.marker]
  | unicode h₁ h₂ h₃ h₄ => [0x5C, 0x75, h₁, h₂, h₃, h₄]

/-- No quote, backslash or control character stands for itself, and the digits of an escape are
hexadecimal. -/
def IsAllowed : Piece → Prop
  | plain b => b ≠ 0x22 ∧ b ≠ 0x5C ∧ 0x20 ≤ b.toNat
  | short _ => True
  | unicode h₁ h₂ h₃ h₄ => ∃ n, Hex.four? h₁ h₂ h₃ h₄ = some n

/-- The escape of a surrogate. -/
def IsSurrogate : Piece → Prop
  | unicode h₁ h₂ h₃ h₄ => ∃ n, Hex.four? h₁ h₂ h₃ h₄ = some n ∧ 0xD800 ≤ n ∧ n ≤ 0xDFFF
  | _ => False

end Piece

/-- The spelling of pieces. -/
def piecesOctets (ps : List Piece) : List UInt8 :=
  ps.flatMap Piece.octets

/-- The text that pieces mean. Octets that stand for themselves encode characters. -/
inductive PiecesDenote : List Piece → List Char → Prop where
  | nil : PiecesDenote [] []
  -- One character takes as many pieces as it has octets.
  | plain {c : Char} {ps : List Piece} {cs : List Char} : PiecesDenote ps cs →
    PiecesDenote ((Utf8.encodeNat c.toNat).map .plain ++ ps) (c :: cs)
  | short {e : ShortEscape} {ps : List Piece} {cs : List Char} : PiecesDenote ps cs →
    PiecesDenote (.short e :: ps) (e.char :: cs)
  | unicode {h₁ h₂ h₃ h₄ : UInt8} {c : Char} {ps : List Piece} {cs : List Char} :
    Hex.four? h₁ h₂ h₃ h₄ = some c.toNat → PiecesDenote ps cs →
    PiecesDenote (.unicode h₁ h₂ h₃ h₄ :: ps) (c :: cs)

/-- Pieces mean a text: what stands between the quotes is well-formed UTF-8, and no escape is that
of a surrogate. -/
def HasText (ps : List Piece) : Prop :=
  Utf8.isValid (piecesOctets ps) = true ∧ ∀ p ∈ ps, ¬p.IsSurrogate

/-! ## Numbers -/

/-- At least one digit, and nothing but digits. -/
def IsDigits (ds : List UInt8) : Prop :=
  ds ≠ [] ∧ ∀ b ∈ ds, isDigit b = true

/-- The digits before the point do not begin with a zero, unless it is the only one. -/
def IsWhole (ds : List UInt8) : Prop :=
  IsDigits ds ∧ ∀ more, ds = 0x30 :: more → more = []

/-- A fraction is a point and digits, or nothing. -/
inductive FractionSpells : List UInt8 → List UInt8 → Prop where
  | absent : FractionSpells [] []
  | present {ds : List UInt8} : IsDigits ds → FractionSpells ds (0x2E :: ds)

/-- An exponent is marked by a letter in either case and may have a sign. -/
inductive ExponentSpells : Bool → List UInt8 → List UInt8 → Prop where
  | absent : ExponentSpells false [] []
  | unsigned {mark : UInt8} {ds : List UInt8} : mark = 0x65 ∨ mark = 0x45 → IsDigits ds →
    ExponentSpells false ds (mark :: ds)
  | plus {mark : UInt8} {ds : List UInt8} : mark = 0x65 ∨ mark = 0x45 → IsDigits ds →
    ExponentSpells false ds (mark :: 0x2B :: ds)
  | minus {mark : UInt8} {ds : List UInt8} : mark = 0x65 ∨ mark = 0x45 → IsDigits ds →
    ExponentSpells true ds (mark :: 0x2D :: ds)

namespace Numeral

/-- A number has a minus or not, digits, a fraction or not, and an exponent or not. -/
def Spells (n : Numeral) (bs : List UInt8) : Prop :=
  ∃ fraction exponent,
    bs = (if n.negative then [0x2D] else []) ++ (n.whole ++ (fraction ++ exponent))
    ∧ IsWhole n.whole ∧ FractionSpells n.fraction fraction
    ∧ ExponentSpells n.exponentNegative n.exponent exponent

/-- A number means the finite double that is nearest to its exact value, with the sign it is written
with. -/
def Denotes (n : Numeral) (x : Binary64) : Prop :=
  x.negative = n.negative ∧ x.isFinite = true ∧ IsNearest n.toDecimal.value x.magnitude

/-- A number rounds to a finite double. -/
def IsInRange (n : Numeral) : Prop :=
  ∃ m < Binary64.infinity, IsNearest n.toDecimal.value m

end Numeral

/-! ## Values -/

/-- The values that documents spell. The members of an object are as they stand in the document. -/
inductive Expr where
  | word (w : Word)
  | number (n : Numeral)
  | string (ps : List Piece)
  | array (items : List Expr)
  | object (members : List (List Piece × Expr))

/-- The value of a word. -/
def Word.tree : Word → Tree
  | true => .boolean Bool.true
  | false => .boolean Bool.false
  | null => .null

/-- Octets that are all blanks. -/
def IsBlanks (bs : List UInt8) : Prop :=
  ∀ b ∈ bs, Cursor.isBlank b = true

/-- A string is its pieces between quotes. -/
def StringSpells (ps : List Piece) (bs : List UInt8) : Prop :=
  bs = 0x22 :: (piecesOctets ps ++ [0x22]) ∧ ∀ p ∈ ps, p.IsAllowed

/-- A key is a string with a colon behind it, and blanks around the colon. -/
def KeySpells (ps : List Piece) (bs : List UInt8) : Prop :=
  ∃ key ws ws', bs = key ++ (ws ++ 0x3A :: ws') ∧ StringSpells ps key ∧ IsBlanks ws ∧ IsBlanks ws'

namespace Expr

mutual

/-- The number of containers on the deepest path: none for a scalar, one for an empty container. -/
def depth : Expr → Nat
  | array items => itemsDepth items + 1
  | object members => membersDepth members + 1
  | _ => 0

/-- The greatest depth among items. -/
def itemsDepth : List Expr → Nat
  | [] => 0
  | e :: r => max e.depth (itemsDepth r)

/-- The greatest depth among the values of members. -/
def membersDepth : List (List Piece × Expr) → Nat
  | [] => 0
  | (_, e) :: r => max e.depth (membersDepth r)

end

mutual

/-- The octets spell a value. Blanks may stand inside a container around each lexeme. -/
def Spells : Expr → List UInt8 → Prop
  | word w, bs => bs = w.octets
  | number n, bs => n.Spells bs
  | string ps, bs => StringSpells ps bs
  | array [], bs => ∃ ws, bs = 0x5B :: (ws ++ [0x5D]) ∧ IsBlanks ws
  | array (e :: es), bs => ∃ ws item tail, bs = 0x5B :: (ws ++ (item ++ tail)) ∧ IsBlanks ws ∧
    e.Spells item ∧ ItemsSpell es tail
  | object [], bs => ∃ ws, bs = 0x7B :: (ws ++ [0x7D]) ∧ IsBlanks ws
  | object ((k, e) :: ms), bs => ∃ ws key value tail,
    bs = 0x7B :: (ws ++ (key ++ (value ++ tail))) ∧ IsBlanks ws ∧ KeySpells k key ∧
    e.Spells value ∧ MembersSpell ms tail

/-- The octets spell the items behind the first, with a comma before each, and the closing
bracket. -/
def ItemsSpell : List Expr → List UInt8 → Prop
  | [], bs => ∃ ws, bs = ws ++ [0x5D] ∧ IsBlanks ws
  | e :: es, bs => ∃ ws ws' item tail, bs = ws ++ 0x2C :: (ws' ++ (item ++ tail)) ∧ IsBlanks ws ∧
    IsBlanks ws' ∧ e.Spells item ∧ ItemsSpell es tail

/-- The octets spell the members behind the first, with a comma before each, and the closing
bracket. -/
def MembersSpell : List (List Piece × Expr) → List UInt8 → Prop
  | [], bs => ∃ ws, bs = ws ++ [0x7D] ∧ IsBlanks ws
  | (k, e) :: ms, bs => ∃ ws ws' key value tail,
    bs = ws ++ 0x2C :: (ws' ++ (key ++ (value ++ tail))) ∧ IsBlanks ws ∧ IsBlanks ws' ∧
    KeySpells k key ∧ e.Spells value ∧ MembersSpell ms tail

end

/-- The octets spell a document: a value with blanks around it. -/
def SpellsDocument (e : Expr) (bs : List UInt8) : Prop :=
  ∃ ws value ws', bs = ws ++ (value ++ ws') ∧ IsBlanks ws ∧ e.Spells value ∧ IsBlanks ws'

mutual

/-- The tree that a value means. The members of an object are set one after the other. -/
def Denotes : Expr → Tree → Prop
  | word w, t => t = w.tree
  | number n, t => ∃ x, t = .number x ∧ n.Denotes x
  | string ps, t => ∃ s, t = .string s ∧ PiecesDenote ps s.toList
  | array es, t => ∃ ts, t = .array ts ∧ ItemsDenote es ts
  | object ms, t => ∃ pairs, t = .object (Members.ofList pairs) ∧ MembersDenote ms pairs

/-- The trees that items mean, one by one. -/
def ItemsDenote : List Expr → List Tree → Prop
  | [], ts => ts = []
  | e :: es, ts => ∃ t r, ts = t :: r ∧ e.Denotes t ∧ ItemsDenote es r

/-- The pairs that members mean, one by one. -/
def MembersDenote : List (List Piece × Expr) → List (String × Tree) → Prop
  | [], pairs => pairs = []
  | (k, e) :: ms, pairs => ∃ s t r, pairs = (s, t) :: r ∧ PiecesDenote k s.toList ∧ e.Denotes t ∧
    MembersDenote ms r

end

mutual

/-- Strings mean texts and numbers round to finite doubles, throughout. -/
def IsMeaningful : Expr → Prop
  | word _ => True
  | number n => n.IsInRange
  | string ps => HasText ps
  | array es => ItemsMeaningful es
  | object ms => MembersMeaningful ms

/-- All items are meaningful. -/
def ItemsMeaningful : List Expr → Prop
  | [] => True
  | e :: es => e.IsMeaningful ∧ ItemsMeaningful es

/-- All keys and values of members are meaningful. -/
def MembersMeaningful : List (List Piece × Expr) → Prop
  | [] => True
  | (k, e) :: ms => HasText k ∧ e.IsMeaningful ∧ MembersMeaningful ms

end

end Expr

end Document

end StrictJson
