import StrictJson.Proofs.Document.Completeness
import StrictJson.Proofs.Document.Numerals
import StrictJson.Proofs.Number.Closeness
import StrictJson.Proofs.Number.Shortest

/-!
# The text of a number in a document

What is written for a finite double is one number of the grammar, and where nothing continues it a
scan takes all of it and gives the double back. Two doubles share a text only if both are zero.
Whole numbers are written with all their digits, and other numbers with as few digits as read back.
-/

namespace StrictJson

/-! ## Whole numbers -/

namespace Binary64

variable {x : Binary64} {n : Int}

/-- The magnitude gives the absolute value in units. -/
theorem natAbs_units (x : Binary64) : x.units.natAbs = unitsOf x.magnitude := by
  unfold units
  split
  · rw [Int.natAbs_neg, Int.natAbs_natCast]
  · rw [Int.natAbs_natCast]

/-- A double has a whole value exactly if its units are those of a whole number. -/
theorem value_eq_intCast_iff : x.value = n ↔ x.units = n * one := by
  rw [value, div_eq_iff cast_one_pos.ne']
  exact_mod_cast Iff.rfl

/-- A finite double is told to be a whole number exactly if that is its value. -/
theorem toInt?_eq_some_iff (hx : x.isFinite = true) : x.toInt? = some n ↔ x.value = n := by
  rw [value_eq_intCast_iff]
  unfold toInt? units
  rw [hx, Bool.true_and]
  have hone : (0 : Int) < one := Int.natCast_pos.2 one_pos
  by_cases hmod : unitsOf x.magnitude % one = 0
  · obtain ⟨k, hk⟩ := Nat.dvd_of_mod_eq_zero hmod
    rw [hk, Nat.mul_div_cancel_left _ one_pos, Nat.mul_mod_right, if_pos (beq_self_eq_true 0)]
    push_cast
    split
    · rw [Option.some.injEq, mul_comm (one : Int), ← neg_mul, mul_left_inj' hone.ne']
    · rw [Option.some.injEq, mul_comm (one : Int), mul_left_inj' hone.ne']
  · rw [if_neg (by simpa using hmod)]
    refine ⟨fun h => (nomatch h), fun h => absurd ?_ hmod⟩
    have habs : unitsOf x.magnitude = n.natAbs * one := by
      rw [← natAbs_units, units, h, Int.natAbs_mul, Int.natAbs_natCast]
    rw [habs, Nat.mul_mod_left]

/-- A whole number that is a finite double has 309 digits at most. -/
theorem length_toDigits_le (hx : x.isFinite = true) (h : x.value = n) :
    (Nat.toDigits 10 n.natAbs).length ≤ 309 := by
  refine Nat.toDigits_length 10 _ 309 (by decide) ?_
  have hunits : unitsOf x.magnitude = n.natAbs * one := by
    rw [← natAbs_units, value_eq_intCast_iff.1 h, Int.natAbs_mul, Int.natAbs_natCast]
  have hvalue : valueOf x.magnitude = (n.natAbs : ℚ) := by
    rw [valueOf, hunits, Nat.cast_mul, mul_div_cancel_right₀ _ cast_one_pos.ne']
  have hlt : valueOf x.magnitude < 10 ^ 309 :=
    (valueOf_strictMono (of_decide_eq_true hx)).trans_le Decimal.valueOf_infinity_le
  rw [hvalue] at hlt
  exact_mod_cast hlt

/-- The text of a finite double that is a whole number. -/
theorem text_of_value_eq (hx : x.isFinite = true) (h : x.value = n) : x.text = integerText n := by
  have hnan : x.isNaN = false := decide_eq_false (Nat.lt_asymm (of_decide_eq_true hx))
  simp [text, hnan, hx, (toInt?_eq_some_iff hx).2 h]

/-- The text of a finite double that is no whole number. -/
theorem text_of_value_ne (hx : x.isFinite = true) (h : ∀ n : Int, x.value ≠ n) :
    x.text = (if x.negative then ['-'] else []) ++ (Decimal.shortest x.magnitude).text := by
  have hnan : x.isNaN = false := decide_eq_false (Nat.lt_asymm (of_decide_eq_true hx))
  have hnone : x.toInt? = none :=
    Option.eq_none_iff_forall_ne_some.2 fun n hn => h n ((toInt?_eq_some_iff hx).1 hn)
  simp [text, hnan, hx, hnone]

/-- A double that is no whole number is not zero. -/
theorem magnitude_ne_zero (h : ∀ n : Int, x.value ≠ n) : x.magnitude ≠ 0 := by
  intro h0
  refine h 0 (value_eq_intCast_iff.2 ?_)
  rw [zero_mul, ← Int.natAbs_eq_zero, natAbs_units, h0, unitsOf_eq, if_pos (by decide)]

/-- Doubles that differ at most in the sign of zero are the same or both zero. -/
theorem eq_or_of_dropZeroSign_eq {x y : Binary64} (h : x.dropZeroSign = y.dropZeroSign) :
    x = y ∨ x.magnitude = 0 ∧ y.magnitude = 0 := by
  have hmagnitude : x.magnitude = y.magnitude := by
    simpa using congrArg magnitude h
  by_cases h0 : x.magnitude = 0
  · exact .inr ⟨h0, hmagnitude ▸ h0⟩
  · rw [dropZeroSign, dropZeroSign, if_neg h0, if_neg (hmagnitude ▸ h0)] at h
    exact .inl h

end Binary64

namespace Document

open Cursor
open Utf8 (encodeText)

variable {r : List UInt8}

/-- What may come behind a value: nothing, a blank, a comma or the close of a container. -/
def EndsValue (r : List UInt8) : Prop :=
  ∀ b ∈ r.head?, isBlank b = true ∨ b = 0x2C ∨ b = 0x5D ∨ b = 0x7D

/-- Nothing of that continues a number. -/
theorem EndsValue.endsNumber (h : EndsValue r) : EndsNumber r := by
  intro b hb
  rcases h b hb with hblank | hclose
  · have hblanks : IsBlanks [b] := by simpa [IsBlanks] using hblank
    exact endsNumber_blanks_append (r := []) hblanks (by simp [EndsNumber]) b rfl
  · exact endsNumber_cons (r := []) hclose b rfl

/-- The text of a finite double is read as that double, apart from the sign of zero. -/
theorem scanNumber_text {x : Binary64} (hx : x.isFinite = true) {c c' : Cursor}
    (hpasses : c.Passes (encodeText x.text) c') (hends : EndsNumber c'.rest) :
    scanNumber c = .ok (x.dropZeroSign, c') := by
  obtain ⟨numeral, hspells, hdenotes⟩ := exists_numeral_binary64 hx
  exact scanNumber_of_spells hspells hdenotes hpasses hends

/-- Finite doubles of the same text are the same or both zero. -/
theorem eq_or_of_text_eq {x y : Binary64} (hx : x.isFinite = true) (hy : y.isFinite = true)
    (h : x.text = y.text) : x = y ∨ x.magnitude = 0 ∧ y.magnitude = 0 := by
  have hends : EndsNumber [] := fun b hb => nomatch hb
  have hpasses {z : Binary64} (hz : x.text = z.text) : Passes ⟨0, encodeText x.text⟩
      (encodeText z.text) ⟨(encodeText x.text).length, []⟩ := by
    rw [← hz]
    exact ⟨(List.append_nil _).symm, (Nat.zero_add _).symm⟩
  -- Both are what a scan makes of the text.
  have hscan := scanNumber_text hx (hpasses rfl) hends
  rw [scanNumber_text hy (hpasses h) hends, Except.ok.injEq, Prod.mk.injEq] at hscan
  exact Binary64.eq_or_of_dropZeroSign_eq hscan.1.symm

/-- The text of a double stands for that double, and for no other. -/
structure HasExactText (x : Binary64) : Prop where
  /-- The text is a number of the grammar. -/
  spelled : ∃ numeral : Numeral, numeral.Spells (encodeText x.text)
  /-- A scan that starts before it in a document, with the end, a blank, a comma or a close behind
  it, takes it exactly and gives the double back, negative zero as zero. -/
  scanned : ∀ c c' : Cursor, c.Passes (encodeText x.text) c' → EndsValue c'.rest →
    scanNumber c = .ok (x.dropZeroSign, c')
  /-- No other finite double has the same text, except zero for zero. -/
  injective : ∀ y : Binary64, y.isFinite = true → x.text = y.text →
    x = y ∨ x.magnitude = 0 ∧ y.magnitude = 0
  /-- A whole number is written with all its digits, 309 at most, -/
  whole : ∀ n : Int, x.value = n → x.text = integerText n ∧ (Nat.toDigits 10 n.natAbs).length ≤ 309
  /-- and any other with the fewest digits with which a decimal reads as its absolute value. -/
  shortest : (∀ n : Int, x.value ≠ n) →
    x.text = (if x.negative then ['-'] else []) ++ (Decimal.shortest x.magnitude).text ∧
    (Decimal.shortest x.magnitude).toMagnitude = x.magnitude ∧
    ∀ d : Decimal, d.toMagnitude = x.magnitude →
      (Decimal.shortest x.magnitude).digits.length ≤ d.digits.length

/-- Every finite double has an exact text. -/
theorem number_text_exact {x : Binary64} (hx : x.isFinite = true) : HasExactText x := by
  have hlt := of_decide_eq_true hx
  refine ⟨?_, fun c c' hpasses hends => scanNumber_text hx hpasses hends.endsNumber,
    fun y hy => eq_or_of_text_eq hx hy,
    fun n hn => ⟨Binary64.text_of_value_eq hx hn, Binary64.length_toDigits_le hx hn⟩,
    fun hne => ⟨Binary64.text_of_value_ne hx hne, Decimal.toMagnitude_shortest hlt,
      fun d => Decimal.digits_shortest_le hlt (Binary64.magnitude_ne_zero hne)⟩⟩
  obtain ⟨numeral, hspells, -⟩ := exists_numeral_binary64 hx
  exact ⟨numeral, hspells⟩

/-- Negative zero, before the close of an array, and the greatest finite double, at the end. -/
theorem number_text_exact_extremes :
    scanNumber ⟨7, [0x30, 0x5D]⟩ = .ok (Binary64.ofBits 0, ⟨8, [0x5D]⟩) ∧
      ∃ bs : List UInt8, bs.length = 309 ∧
        scanNumber ⟨0, bs⟩ = .ok (Binary64.ofBits 0x7FEFFFFFFFFFFFFF, ⟨309, []⟩) := by
  constructor
  · have hfinite : (Binary64.ofBits 0x8000000000000000).isFinite = true := by decide
    have htext : encodeText (Binary64.ofBits 0x8000000000000000).text = [0x30] := by
      decide +kernel
    have hzero : (Binary64.ofBits 0x8000000000000000).dropZeroSign = Binary64.ofBits 0 := by
      decide +kernel
    have hscan := (number_text_exact hfinite).scanned
    rw [htext, hzero] at hscan
    exact hscan ⟨7, [0x30, 0x5D]⟩ ⟨8, [0x5D]⟩ ⟨rfl, rfl⟩ (by simp [EndsValue])
  · have hfinite : (Binary64.ofBits 0x7FEFFFFFFFFFFFFF).isFinite = true := by decide
    have hlength : (encodeText (Binary64.ofBits 0x7FEFFFFFFFFFFFFF).text).length = 309 := by
      decide +kernel
    have hsame : (Binary64.ofBits 0x7FEFFFFFFFFFFFFF).dropZeroSign =
        Binary64.ofBits 0x7FEFFFFFFFFFFFFF := by decide +kernel
    have hscan := (number_text_exact hfinite).scanned
    rw [hsame] at hscan
    generalize encodeText (Binary64.ofBits 0x7FEFFFFFFFFFFFFF).text = bs at hlength hscan
    refine ⟨bs, hlength, hscan ⟨0, bs⟩ ⟨309, []⟩ ⟨(List.append_nil bs).symm, ?_⟩
      (by simp [EndsValue])⟩
    rw [hlength]

end Document

end StrictJson
