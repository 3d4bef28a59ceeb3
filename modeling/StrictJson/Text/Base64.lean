/-!
# Base 64

Octets written with 64 letters, of which four stand for three octets. Reading is lenient: what is no
letter is skipped, and reading ends at the padding that completes a group of four.
-/

namespace StrictJson.Base64

/-- The value of a letter. -/
def value? (c : Char) : Option Nat :=
  if 'A' ≤ c ∧ c ≤ 'Z' then some (c.toNat - 0x41)
  else if 'a' ≤ c ∧ c ≤ 'z' then some (c.toNat - 0x61 + 26)
  else if '0' ≤ c ∧ c ≤ '9' then some (c.toNat - 0x30 + 52)
  else if c = '+' then some 62
  else if c = '/' then some 63
  else none

/-- Read on with the bits left over from the letters of the current group, which are `filled` in
number and have been padded `pads` times since the last of them. -/
def decodeFrom (filled left pads : Nat) : List Char → Option (List UInt8)
  | [] => if filled = 0 then some [] else none
  | '=' :: r =>
    if 2 ≤ filled then
      if 4 ≤ filled + (pads + 1) then some [] else decodeFrom filled left (pads + 1) r
    else decodeFrom filled left pads r
  | c :: r =>
    match value? c with
    | none => decodeFrom filled left pads r
    | some v =>
      if filled = 0 then decodeFrom 1 v 0 r
      else if filled = 1 then (decodeFrom 2 (v % 16) 0 r).map (UInt8.ofNat (left * 4 + v / 16) :: ·)
      else if filled = 2 then (decodeFrom 3 (v % 4) 0 r).map (UInt8.ofNat (left * 16 + v / 4) :: ·)
      else (decodeFrom 0 0 0 r).map (UInt8.ofNat (left * 64 + v) :: ·)

/-- The octets that a text denotes. -/
def decode (cs : List Char) : Option (List UInt8) :=
  decodeFrom 0 0 0 cs

end StrictJson.Base64
