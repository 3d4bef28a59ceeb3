import StrictJson.Failure
import StrictJson.Text.Utf8

/-!
# Text from outside

Text arrives as code points, among which there may be surrogates, or as octets, which may be
malformed. `toText` is the one way in: it goes through the octets of the generic layout, and they
are refused unless they are well-formed UTF-8.
-/

namespace StrictJson

/-- Text as it arrives. -/
inductive RawText where
  | codePoints (cs : List CodePoint)
  | octets (bs : List UInt8)

namespace RawText

/-- The octets of a text, in the layout that serves all code points. -/
def toOctets : RawText → List UInt8
  | codePoints cs => cs.flatMap Utf8.encode
  | octets bs => bs

/-- Whether a text is well-formed UTF-8. -/
def isValid (t : RawText) : Bool :=
  Utf8.isValid t.toOctets

/-- The characters of a text, provided that it is well formed. -/
def toText (t : RawText) : Except Failure String :=
  match Utf8.decode t.toOctets with
  | some cs => .ok (String.ofList cs)
  | none => .error .malformedText

/-- The text of a `String`, as it would arrive. -/
def ofString (s : String) : RawText :=
  codePoints (CodePoint.ofString s)

/-- The first maximal run of surrogates in a text, and the number of code points before it. -/
def surrogates? (cs : List CodePoint) : Option (Nat × List CodePoint) :=
  match cs.span fun c => !c.isSurrogate with
  | (_, []) => none
  | (before, rest) => some (before.length, rest.takeWhile CodePoint.isSurrogate)

end RawText

/-- The octets of a code point given by its number. -/
def encodeCodePoint (n : Int) : Except Failure (List UInt8) :=
  if n < 0 then .error .negativeCodePoint
  else if n.toNat < 0x110000 then .ok (Utf8.encodeNat n.toNat)
  else .error (.codePointOutOfRange n.toNat)

end StrictJson
