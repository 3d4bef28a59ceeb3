import StrictJson.Text.Utf8
import StrictJson.Yaml.Error

/-!
# The input of a reader

A text is read and checked in portions, and only as far as it is needed: octets that are no UTF-8
and characters that no YAML may have are faults that are found out together with the portion they
are in. So the input consists of the characters before the first portion with a fault, and of that
fault.

Octets are decoded in portions of 8192, or more if characters have taken many octets so far. Of what
is decoded 4096 characters are handed out at a time, the first time twice as many. Line ends are
read as line feeds.
-/

namespace StrictJson.Yaml

/-! ## Decoding -/

/-- Whether octets begin a character without ending it. -/
def beginsCharacter (bs : List UInt8) : Bool :=
  [1, 2, 3].any fun n => [0x80, 0xBF].any fun b =>
    match Utf8.decode (bs ++ List.replicate n b) with
    | some [_] => true
    | _ => false

/-- The octets of a portion that are complete characters, or no characters at all, and those at its
end that begin a character. -/
def splitPortion (bs : List UInt8) : List UInt8 × List UInt8 :=
  let tails := [1, 2, 3].map fun n => bs.drop (bs.length - n)
  match tails.find? beginsCharacter with
  | some tail => (bs.take (bs.length - tail.length), tail)
  | none => (bs, [])

/-- A text with all line ends in the form of a line feed. -/
def unifyLineEnds : List Char → List Char
  | '\r' :: '\n' :: r => '\n' :: unifyLineEnds r
  | '\r' :: r => '\n' :: unifyLineEnds r
  | c :: r => c :: unifyLineEnds r
  | [] => []

/-- How far a text has been decoded: the octets that are left, the beginning of a character and the
carriage return that the last portion ended with, the characters not yet handed out, and the numbers
of octets and of characters of the last portion. -/
structure Decoding where
  octets : List UInt8
  begun : List UInt8
  hasReturn : Bool
  decoded : List Char
  octetCount : Nat
  charCount : Nat

namespace Decoding

/-- The start of a text. -/
def start (bs : List UInt8) : Decoding where
  octets := bs
  begun := []
  hasReturn := false
  decoded := []
  octetCount := 0
  charCount := 0

/-- The least number of octets that are decoded together. -/
def leastPortion : Nat := 8192

/-- The number of octets that are decoded together when `wanted` characters are: no fewer than the
last portion needed for as many. -/
def portionSize (d : Decoding) (wanted : Nat) : Nat :=
  let guess := if d.charCount = 0 then wanted else max wanted (d.octetCount * wanted / d.charCount)
  max leastPortion guess

/-- Decode a portion. A carriage return at its end is held back, since a line feed may follow. The
result tells whether there was anything left. -/
def decodePortion (d : Decoding) (wanted : Nat) : Except Error (Bool × Decoding) :=
  let portion := d.octets.take (d.portionSize wanted)
  let isLast := portion.isEmpty
  let (complete, begun) :=
    if isLast then (d.begun, []) else splitPortion (d.begun ++ portion)
  match Utf8.decode complete with
  | none => .error (.defective .undecodable)
  | some cs =>
    let cs := if d.hasReturn && (isLast || !cs.isEmpty) then '\r' :: cs else cs
    let endsInReturn := !isLast && cs.getLast? == some '\r'
    let chars := unifyLineEnds (if endsInReturn then cs.dropLast else cs)
    .ok (!(isLast && chars.isEmpty), {
      octets := d.octets.drop portion.length
      begun := begun
      hasReturn := endsInReturn || (d.hasReturn && !isLast && cs.isEmpty)
      decoded := chars
      octetCount := portion.length
      charCount := chars.length })

/-- Hand out up to `wanted` characters, decoding as many portions as this takes. Each takes an octet
at least, so the number of octets bounds their number. -/
def take : Nat → Nat → Decoding → Except Error (List Char × Decoding)
  | 0, _, d => .ok ([], d)
  | fuel + 1, wanted, d =>
    let cs := d.decoded.take wanted
    let d := { d with decoded := d.decoded.drop wanted }
    if cs.length = wanted then .ok (cs, d)
    else
      match d.decodePortion (wanted - cs.length) with
      | .error e => .error e
      | .ok (false, d) => .ok (cs, d)
      | .ok (true, d) => (take fuel (wanted - cs.length) d).map fun (more, d) => (cs ++ more, d)

/-- The number of characters that are handed out together. -/
def portionLength : Nat := 4096

/-- Hand out the next characters; there are none at the end of the text. -/
def next (d : Decoding) : Except Error (List Char × Decoding) :=
  d.take (d.octets.length + 3) portionLength

end Decoding

/-! ## Input -/

/-- The characters that can be read, and what is found behind them instead of the end of the
text. -/
structure Input where
  chars : List Char
  fault : Option Error

namespace Input

/-- Whether a character may stand in a text. -/
def isAllowed (c : Char) : Bool :=
  let n := c.toNat
  decide (n = 0x09 ∨ n = 0x0A ∨ n = 0x0D ∨ (0x20 ≤ n ∧ n ≤ 0x7E) ∨ n = 0x85
    ∨ (0xA0 ≤ n ∧ n ≤ 0xD7FF) ∨ (0xE000 ≤ n ∧ n ≤ 0xFFFD) ∨ 0x10000 ≤ n)

/-- Put a portion before the input behind it. -/
def append (cs : List Char) (behind : Input) : Input :=
  if cs.all isAllowed then { behind with chars := cs ++ behind.chars }
  else ⟨[], some (.malformed .unprintable)⟩

/-- The input behind the first portion. -/
def ofDecoding : Nat → Decoding → Input
  | 0, _ => ⟨[], none⟩
  | fuel + 1, d =>
    match d.next with
    | .error e => ⟨[], some e⟩
    | .ok ([], _) => ⟨[], none⟩
    | .ok (cs, d) => append cs (ofDecoding fuel d)

/-- The input that octets give. -/
def ofOctets (bs : List UInt8) : Input :=
  let first : Except Error (List Char × Decoding) := do
    let (cs, d) ← (Decoding.start bs).next
    let (ds, d) ← d.next
    return (cs ++ ds, d)
  match first with
  | .error e => ⟨[], some e⟩
  | .ok (cs, d) => append cs (ofDecoding (bs.length + 1) d)

end Input

end StrictJson.Yaml
