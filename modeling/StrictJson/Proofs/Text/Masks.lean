import Mathlib.Data.Nat.Bitwise
import StrictJson.Text.Utf8

/-!
# Masks and shifts of UTF-8

A mask that keeps the lower bits is a remainder, a shift to the right a quotient, and marks that are
set above a payload are added to it. So `encodeNat` lays out the digits of a number in base 64, and
`form?` tells intervals of octets apart: `encodeNat_eq`, `form?_eq`.
-/

namespace StrictJson.Utf8

/-! ## Octets -/

/-- What holds of the octets of all numbers below 256 holds of every octet. -/
theorem forall_octet {P : UInt8 → Prop} (h : ∀ n < 256, P (UInt8.ofNat n)) (b : UInt8) : P b := by
  have hb := h b.toNat b.toNat_lt
  rwa [UInt8.ofNat_toNat] at hb

/-- The octets without the highest bit are those of ASCII. -/
theorem and_eq_zero_iff : ∀ b : UInt8, b &&& 0x80 = 0 ↔ b.toNat < 0x80 :=
  forall_octet (by decide +kernel)

/-- The octets with the mark of continuation come right behind those of ASCII. -/
theorem and_eq_mark_iff : ∀ b : UInt8, b &&& 0xC0 = 0x80 ↔ 0x80 ≤ b.toNat ∧ b.toNat < 0xC0 :=
  forall_octet (by decide +kernel)

/-- The form that a lead octet opens is told by the interval that the octet is in. -/
theorem form?_eq : ∀ b : UInt8, form? b =
    if b.toNat < 0xC0 then none
    else if b.toNat < 0xE0 then some ⟨0xE0, 0xC0, 2, 0x1F, 0x80⟩
    else if b.toNat < 0xF0 then some ⟨0xF0, 0xE0, 3, 0x0F, 0x800⟩
    else if b.toNat < 0xF8 then some ⟨0xF8, 0xF0, 4, 0x07, 0x10000⟩
    else none :=
  forall_octet (by decide +kernel)

/-- The payload of an octet below its mark. -/
theorem toNat_and_payload (b : UInt8) {m : UInt8} {k : Nat} (hm : m.toNat = 2 ^ k - 1) :
    (b &&& m).toNat = b.toNat % 2 ^ k := by
  rw [UInt8.toNat_and, hm, Nat.and_two_pow_sub_one_eq_mod]

/-! ## Numbers -/

variable {n x : Nat}

/-- A mark that is set above a payload. -/
theorem mark_or {m : Nat} (k : Nat) (hm : 2 ^ k ∣ m) (hx : x < 2 ^ k) : m ||| x = m + x := by
  obtain ⟨a, rfl⟩ := hm
  rw [Nat.mul_comm, ← Nat.shiftLeft_eq, Nat.shiftLeft_add_eq_or_of_lt hx]

/-- The last six bits of a number, behind the mark of continuation. -/
theorem continuation_eq (n : Nat) : 0x80 ||| n &&& 0x3F = 0x80 + n % 0x40 := by
  have hmod : n &&& 0x3F = n % 0x40 := Nat.and_two_pow_sub_one_eq_mod n 6
  have hlt : n % 0x40 < 2 ^ 6 := Nat.mod_lt n (by decide)
  rw [hmod, mark_or 6 (by decide) hlt]

/-- The octets of a number are marks and its digits in base 64. -/
theorem encodeNat_eq (h : n < 0x200000) : encodeNat n =
    if n < 0x80 then
      [UInt8.ofNat n]
    else if n < 0x800 then
      [UInt8.ofNat (0xC0 + n / 0x40), UInt8.ofNat (0x80 + n % 0x40)]
    else if n < 0x10000 then
      [UInt8.ofNat (0xE0 + n / 0x1000), UInt8.ofNat (0x80 + n / 0x40 % 0x40),
        UInt8.ofNat (0x80 + n % 0x40)]
    else
      [UInt8.ofNat (0xF0 + n / 0x40000), UInt8.ofNat (0x80 + n / 0x1000 % 0x40),
        UInt8.ofNat (0x80 + n / 0x40 % 0x40), UInt8.ofNat (0x80 + n % 0x40)] := by
  have h₆ : n >>> 6 = n / 0x40 := Nat.shiftRight_eq_div_pow n 6
  have h₁₂ : n >>> 12 = n / 0x1000 := Nat.shiftRight_eq_div_pow n 12
  have h₁₈ : n >>> 18 = n / 0x40000 := Nat.shiftRight_eq_div_pow n 18
  unfold encodeNat
  simp only [continuation_eq, h₆, h₁₂, h₁₈]
  -- Above its mark a lead octet has five, four or three bits left for the number.
  split_ifs
  · rfl
  · rw [mark_or 5 (by decide) (show n / 0x40 < 2 ^ 5 by omega)]
  · rw [mark_or 4 (by decide) (show n / 0x1000 < 2 ^ 4 by omega)]
  · rw [mark_or 3 (by decide) (show n / 0x40000 < 2 ^ 3 by omega)]

/-- A continuation octet extends a number by one digit in base 64. -/
theorem extend?_cons (n : Nat) (b : UInt8) (bs : List UInt8) :
    extend? n (b :: bs) = (continuation? b).bind fun x => extend? (n * 0x40 + x) bs := by
  rw [extend?, continuation?]
  by_cases hb : 0x80 ≤ b.toNat ∧ b.toNat < 0xC0
  · have hx : (b &&& 0x3F).toNat = b.toNat - 0x80 := by
      rw [toNat_and_payload b (show (0x3F : UInt8).toNat = 2 ^ 6 - 1 from rfl)]
      omega
    have hor : n <<< 6 ||| (b.toNat - 0x80) = n * 0x40 + (b.toNat - 0x80) := by
      rw [← Nat.shiftLeft_add_eq_or_of_lt (show b.toNat - 0x80 < 2 ^ 6 by omega), Nat.shiftLeft_eq]
    rw [if_pos ((and_eq_mark_iff b).2 hb), if_pos hb, hx, hor]
    rfl
  · rw [if_neg (mt (and_eq_mark_iff b).1 hb), if_neg hb]
    rfl

end StrictJson.Utf8
