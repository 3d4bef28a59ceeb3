import StrictJson.Text.CodePoint

/-!
# UTF-8

`encode` lays out any code point in one to four octets. `isValid` scans octets and refuses
everything that is not well formed: stray or missing continuation octets, forms longer than needed,
surrogates and numbers above 10FFFF. Surrogates therefore can be laid out, but what is laid out for
them is not valid. `decode` reads well-formed octets back into characters.
-/

namespace StrictJson.Utf8

/-- The octets of the number `n` in the generic layout: one to four octets, the lead octet telling
how many. Numbers above 10FFFF are outside the layout's domain. -/
def encodeNat (n : Nat) : List UInt8 :=
  if n < 0x80 then
    [UInt8.ofNat n]
  else if n < 0x800 then
    [UInt8.ofNat (0xC0 ||| n >>> 6), UInt8.ofNat (0x80 ||| n &&& 0x3F)]
  else if n < 0x10000 then
    [UInt8.ofNat (0xE0 ||| n >>> 12), UInt8.ofNat (0x80 ||| n >>> 6 &&& 0x3F),
      UInt8.ofNat (0x80 ||| n &&& 0x3F)]
  else
    [UInt8.ofNat (0xF0 ||| n >>> 18), UInt8.ofNat (0x80 ||| n >>> 12 &&& 0x3F),
      UInt8.ofNat (0x80 ||| n >>> 6 &&& 0x3F), UInt8.ofNat (0x80 ||| n &&& 0x3F)]

/-- The octets of a code point, surrogates included. -/
def encode (c : CodePoint) : List UInt8 :=
  encodeNat c.val

/-- The octets of a text. -/
def encodeText (s : List Char) : List UInt8 :=
  s.flatMap fun c => encodeNat c.toNat

/-- The payload of a continuation octet. -/
def continuation? (b : UInt8) : Option Nat :=
  if 0x80 ≤ b.toNat ∧ b.toNat < 0xC0 then some (b.toNat - 0x80) else none

/-- The character with the number `n`, provided that no shorter form could have written it. -/
def scalarFrom? (least n : Nat) : Option Char :=
  if least ≤ n then scalar? n else none

/-- The characters that well-formed octets encode; `none` for all other octets. -/
def decode : List UInt8 → Option (List Char)
  | [] => some []
  | b₀ :: r₀ =>
    let lead := b₀.toNat
    if lead < 0x80 then do
      let c ← scalar? lead
      let cs ← decode r₀
      return c :: cs
    else if lead < 0xC0 then
      none
    else if lead < 0xE0 then
      match r₀ with
      | b₁ :: r₁ => do
        let x₁ ← continuation? b₁
        let c ← scalarFrom? 0x80 ((lead - 0xC0) * 0x40 + x₁)
        let cs ← decode r₁
        return c :: cs
      | _ => none
    else if lead < 0xF0 then
      match r₀ with
      | b₁ :: b₂ :: r₂ => do
        let x₁ ← continuation? b₁
        let x₂ ← continuation? b₂
        let c ← scalarFrom? 0x800 (((lead - 0xE0) * 0x40 + x₁) * 0x40 + x₂)
        let cs ← decode r₂
        return c :: cs
      | _ => none
    else if lead < 0xF8 then
      match r₀ with
      | b₁ :: b₂ :: b₃ :: r₃ => do
        let x₁ ← continuation? b₁
        let x₂ ← continuation? b₂
        let x₃ ← continuation? b₃
        let c ← scalarFrom? 0x10000 ((((lead - 0xF0) * 0x40 + x₁) * 0x40 + x₂) * 0x40 + x₃)
        let cs ← decode r₃
        return c :: cs
      | _ => none
    else
      none

/-- A form of several octets. -/
structure Form where
  /-- The bits of a lead octet that tell the form. -/
  mask : UInt8
  /-- What these bits are in this form. -/
  pattern : UInt8
  /-- How many octets there are, the lead octet included. -/
  size : Nat
  /-- The bits of the lead octet that belong to the number. -/
  payload : UInt8
  /-- The first number that no shorter form could have written. -/
  least : Nat
  deriving DecidableEq

/-- The forms of two, three and four octets. -/
def forms : List Form :=
  [⟨0xE0, 0xC0, 2, 0x1F, 0x80⟩, ⟨0xF0, 0xE0, 3, 0x0F, 0x800⟩, ⟨0xF8, 0xF0, 4, 0x07, 0x10000⟩]

/-- The form that a lead octet opens. -/
def form? (lead : UInt8) : Option Form :=
  forms.find? fun f => lead &&& f.mask == f.pattern

/-- The number `n` with the payloads of continuation octets behind it. -/
def extend? (n : Nat) : List UInt8 → Option Nat
  | [] => some n
  | b :: bs => if b &&& 0xC0 = 0x80 then extend? (n <<< 6 ||| (b &&& 0x3F).toNat) bs else none

/-- Whether octets are well-formed UTF-8. -/
def isValid : List UInt8 → Bool
  | [] => true
  | lead :: r =>
    if lead &&& 0x80 = 0 then
      isValid r
    else
      match form? lead with
      | none => false
      | some f =>
        if r.length + 1 < f.size then
          false
        else
          match extend? (lead &&& f.payload).toNat (r.take (f.size - 1)) with
          | none => false
          | some n =>
            if n < f.least then false
            else if 0xD800 ≤ n ∧ n ≤ 0xDFFF then false
            else if 0x10FFFF < n then false
            else isValid (r.drop (f.size - 1))
termination_by bs => bs.length
decreasing_by
  · exact Nat.lt_succ_self r.length
  · exact Nat.lt_succ_of_le (List.length_drop ▸ Nat.sub_le r.length (f.size - 1))

end StrictJson.Utf8
