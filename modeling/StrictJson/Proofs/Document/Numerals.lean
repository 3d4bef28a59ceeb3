import StrictJson.Number.Text
import StrictJson.Proofs.Document.Meaning

/-!
# Numbers that are written

The text of a finite double is a number of the grammar, and it means that double: its digits stand
for a decimal that is nearest to the double or equal to it. Only the sign of zero is lost.
-/

namespace StrictJson

/-! ## The sign of zero -/

namespace Binary64

/-- Negative zero becomes zero, and all other doubles stay. -/
def dropZeroSign (x : Binary64) : Binary64 :=
  if x.magnitude = 0 then { x with negative := false } else x

/-- The magnitude stays. -/
@[simp]
theorem magnitude_dropZeroSign (x : Binary64) : x.dropZeroSign.magnitude = x.magnitude := by
  unfold dropZeroSign
  split <;> rfl

/-- A finite double stays finite. -/
@[simp]
theorem isFinite_dropZeroSign (x : Binary64) : x.dropZeroSign.isFinite = x.isFinite := by
  rw [isFinite, magnitude_dropZeroSign]
  rfl

/-- The text does not tell the sign of zero. -/
theorem text_dropZeroSign (x : Binary64) : x.dropZeroSign.text = x.text := by
  unfold dropZeroSign
  split
  · rename_i h
    simp [text, isNaN, isFinite, toInt?, h, unitsOf, show 0 < infinity by decide]
  · rfl

end Binary64

/-! ## Digits -/

/-- The digits of a positive number do not begin with a zero. -/
theorem toDigits_ne_zero_cons {n : Nat} (hn : 0 < n) (more : List Char) :
    Nat.toDigits 10 n ≠ '0' :: more := by
  induction n using Nat.strongRecOn generalizing more with
  | ind n ih =>
    -- By the digits in front of the last one, which are those of a smaller positive number.
    rw [Nat.toDigits_eq_if (by decide)]
    split
    · rename_i hlt
      intro h
      obtain ⟨hd, -⟩ := List.cons.inj h
      have := Nat.toNat_digitChar_sub_48_of_lt_ten hlt
      rw [hd] at this
      exact absurd this.symm (Nat.ne_of_gt hn)
    · intro h
      obtain ⟨d, ds, hds⟩ := List.exists_cons_of_ne_nil (@Nat.toDigits_ne_nil (n / 10) 10)
      rw [hds] at h
      obtain ⟨rfl, -⟩ := List.cons.inj h
      exact ih (n / 10) (by omega) (by omega) ds hds

namespace Document

open Utf8 (encodeText)
open Binary64 (IsNearest infinity valueOf unitsOf one)

variable {cs cs' : List Char}

/-- Digits are ASCII. -/
theorem toNat_lt_of_isDigit {c : Char} (h : c.isDigit = true) : c.toNat < 0x80 := by
  have : c.toNat ≤ '9'.toNat := (Char.isDigit_iff_toNat.1 h).2
  exact Nat.lt_of_le_of_lt this (by decide)

/-- Digits have one octet each. -/
theorem encodeText_digits (h : ∀ c ∈ cs, c.isDigit = true) :
    encodeText cs = cs.map fun c => UInt8.ofNat c.toNat :=
  Utf8.encodeText_of_lt fun c hc => toNat_lt_of_isDigit (h c hc)

/-- The octets of digits are digits. -/
theorem isDigit_of_mem_encodeText (h : ∀ c ∈ cs, c.isDigit = true) :
    ∀ b ∈ encodeText cs, isDigit b = true := by
  intro b hb
  rw [encodeText_digits h] at hb
  obtain ⟨c, hc, rfl⟩ := List.mem_map.1 hb
  have hbounds : 0x30 ≤ c.toNat ∧ c.toNat ≤ 0x39 := Char.isDigit_iff_toNat.1 (h c hc)
  refine decide_eq_true ?_
  rw [UInt8.toNat_ofNat']
  omega

/-- Digits are at least one digit, unless there are none. -/
theorem isDigits_encodeText (h : ∀ c ∈ cs, c.isDigit = true) (hne : cs ≠ []) :
    IsDigits (encodeText cs) := by
  refine ⟨?_, isDigit_of_mem_encodeText h⟩
  rw [encodeText_digits h]
  simpa using hne

/-- Digits may stand before the point if they do not begin with a zero, or are a zero only. -/
theorem isWhole_encodeText (h : ∀ c ∈ cs, c.isDigit = true) (hne : cs ≠ [])
    (hzero : ∀ more, cs = '0' :: more → more = []) : IsWhole (encodeText cs) := by
  refine ⟨isDigits_encodeText h hne, ?_⟩
  intro more hmore
  obtain ⟨c, r, rfl⟩ := List.exists_cons_of_ne_nil hne
  rw [encodeText_digits h, List.map_cons] at hmore
  obtain ⟨hc, rfl⟩ := List.cons.inj hmore
  have hlt := toNat_lt_of_isDigit (h c List.mem_cons_self)
  have hc' : c = '0' := by
    have := congrArg UInt8.toNat hc
    rw [UInt8.toNat_ofNat', Nat.mod_eq_of_lt (by omega)] at this
    exact Char.toNat_inj.1 this
  subst hc'
  rw [hzero r rfl]
  rfl

/-- The digits of a number may stand before the point. -/
theorem isWhole_toDigits (n : Nat) : IsWhole (encodeText (Nat.toDigits 10 n)) := by
  refine isWhole_encodeText (fun c => Nat.isDigit_of_mem_toDigits (by decide) (by decide))
    Nat.toDigits_ne_nil fun more hmore => ?_
  rcases Nat.eq_zero_or_pos n with rfl | hn
  · exact (List.cons.inj hmore).2.symm
  · exact absurd hmore (toDigits_ne_zero_cons hn more)

/-- Digits write the same number as octets. -/
theorem digitsValue_encodeText (h : ∀ c ∈ cs, c.isDigit = true) :
    digitsValue (encodeText cs) = Nat.ofDigitChars 10 cs 0 := by
  rw [encodeText_digits h, digitsValue, Nat.ofDigitChars, List.foldl_map]
  apply List.foldl_ext
  intro n c hc
  have := toNat_lt_of_isDigit (h c hc)
  rw [UInt8.toNat_ofNat', Nat.mod_eq_of_lt (by omega)]
  rfl

/-! ## Decimals -/

/-- The number that is written in the given parts. -/
def numeralOf (negative : Bool) (whole fraction : List Char) (exponentNegative : Bool)
    (exponent : List Char) : Numeral :=
  ⟨negative, encodeText whole, encodeText fraction, exponentNegative, encodeText exponent⟩

/-- The value of a number that is written in parts. -/
theorem value_numeralOf {whole fraction exponent : List Char}
    (hwhole : ∀ c ∈ whole, c.isDigit = true) (hfraction : ∀ c ∈ fraction, c.isDigit = true)
    (hexponent : ∀ c ∈ exponent, c.isDigit = true) (negative exponentNegative : Bool) :
    (numeralOf negative whole fraction exponentNegative exponent).toDecimal =
      ⟨Nat.ofDigitChars 10 (whole ++ fraction) 0,
        (if exponentNegative then -(Nat.ofDigitChars 10 exponent 0 : Int)
          else Nat.ofDigitChars 10 exponent 0) - fraction.length⟩ := by
  have hboth : ∀ c ∈ whole ++ fraction, c.isDigit = true := fun c hc =>
    (List.mem_append.1 hc).elim (hwhole c) (hfraction c)
  simp only [numeralOf, Numeral.toDecimal, Numeral.exponentValue, ← Utf8.encodeText_append,
    digitsValue_encodeText hboth, digitsValue_encodeText hexponent]
  rw [encodeText_digits hfraction, List.length_map]

/-- A minus is written in front, or nothing. -/
theorem encodeText_sign (negative : Bool) (cs : List Char) :
    encodeText ((if negative then ['-'] else []) ++ cs) =
      (if negative then [0x2D] else []) ++ encodeText cs := by
  cases negative <;> rfl

/-- Digits of a number are digits. -/
theorem isDigit_of_mem_toDigits {n : Nat} : ∀ c ∈ Nat.toDigits 10 n, c.isDigit = true :=
  fun _ => Nat.isDigit_of_mem_toDigits (by decide) (by decide)

/-- Digits with zeros in front are digits. -/
theorem isDigit_of_mem_padded {n k : Nat} :
    ∀ c ∈ List.replicate k '0' ++ Nat.toDigits 10 n, c.isDigit = true := by
  intro c hc
  rcases List.mem_append.1 hc with hc | hc
  · rw [List.eq_of_mem_replicate hc]
    rfl
  · exact isDigit_of_mem_toDigits c hc

/-- Zeros in front do not matter. -/
theorem ofDigitChars_padded (n k : Nat) :
    Nat.ofDigitChars 10 (List.replicate k '0' ++ Nat.toDigits 10 n) 0 = n := by
  rw [Nat.ofDigitChars_append, Nat.ofDigitChars_replicate_zero, Nat.mul_zero,
    Nat.ofDigitChars_ten_toDigits]

/-- A whole number is written with its digits. -/
theorem exists_numeral_toDigits (n : Nat) (negative : Bool) :
    ∃ numeral : Numeral, numeral.negative = negative ∧ numeral.toDecimal.value = n ∧
      numeral.Spells (encodeText ((if negative then ['-'] else []) ++ Nat.toDigits 10 n)) := by
  refine ⟨numeralOf negative (Nat.toDigits 10 n) [] false [], rfl, ?_, ?_⟩
  · rw [value_numeralOf isDigit_of_mem_toDigits (List.forall_mem_nil _) (List.forall_mem_nil _)]
    simp [Decimal.value]
  · refine ⟨[], [], ?_, isWhole_toDigits n, .absent, .absent⟩
    rw [encodeText_sign, List.append_nil, List.append_nil]
    rfl

/-- Digits of a number with zeros behind are digits. -/
theorem isDigit_of_mem_scaled {n k : Nat} :
    ∀ c ∈ Nat.toDigits 10 n ++ List.replicate k '0', c.isDigit = true := by
  intro c hc
  rcases List.mem_append.1 hc with hc | hc
  · exact isDigit_of_mem_toDigits c hc
  · rw [List.eq_of_mem_replicate hc]
    rfl

/-- The digits of a positive number, with zeros behind, may stand before the point. -/
theorem isWhole_scaled {n : Nat} (hn : 0 < n) (k : Nat) :
    IsWhole (encodeText (Nat.toDigits 10 n ++ List.replicate k '0')) := by
  refine isWhole_encodeText isDigit_of_mem_scaled (by simp [Nat.toDigits_ne_nil]) ?_
  intro more hmore
  obtain ⟨d, ds, hds⟩ := List.exists_cons_of_ne_nil (@Nat.toDigits_ne_nil n 10)
  rw [hds] at hmore
  obtain ⟨rfl, -⟩ := List.cons.inj hmore
  exact absurd hds (toDigits_ne_zero_cons hn ds)

/-- The digits of a positive number, with as many zeros in front as it takes to have `places + 1` of
them, may be cut before the last `places`. -/
theorem isWhole_take_padded {n places : Nat} {padded : List Char} (hn : 0 < n)
    (h : padded = List.replicate (places + 1 - (Nat.toDigits 10 n).length) '0'
      ++ Nat.toDigits 10 n) :
    places < padded.length ∧ IsWhole (encodeText (padded.take (padded.length - places))) := by
  have hdigits : ∀ c ∈ padded, c.isDigit = true := h ▸ isDigit_of_mem_padded
  have hlength : places < padded.length := by
    rw [h, List.length_append, List.length_replicate]
    omega
  have hne : padded.take (padded.length - places) ≠ [] := by
    intro hnil
    have := congrArg List.length hnil
    rw [List.length_take, List.length_nil] at this
    omega
  refine ⟨hlength, isWhole_encodeText (fun c hc => hdigits c (List.mem_of_mem_take hc)) hne ?_⟩
  intro more hmore
  -- Either no zero was put in front, or the one digit before the cut is a zero.
  by_cases hpad : places + 1 ≤ (Nat.toDigits 10 n).length
  · rw [Nat.sub_eq_zero_of_le hpad] at h
    have hself : padded = Nat.toDigits 10 n := h
    have hcut := List.take_append_drop (padded.length - places) padded
    rw [hmore, List.cons_append] at hcut
    exact absurd (hself ▸ hcut.symm) (toDigits_ne_zero_cons hn _)
  · have hone : padded.length = places + 1 := by
      rw [h, List.length_append, List.length_replicate]
      omega
    have := congrArg List.length hmore
    rw [List.length_take, hone, List.length_cons] at this
    exact List.eq_nil_of_length_eq_zero (by omega)

/-- A decimal that is not zero is written around a decimal point. -/
theorem exists_numeral_positional {d : Decimal} (hd : 0 < d.coefficient) (negative : Bool) :
    ∃ numeral : Numeral, numeral.negative = negative ∧ numeral.toDecimal.value = d.value ∧
      numeral.Spells (encodeText ((if negative then ['-'] else []) ++ d.positional)) := by
  obtain ⟨c, e⟩ := d
  cases e with
  | ofNat e =>
    refine ⟨numeralOf negative (Nat.toDigits 10 c ++ List.replicate e '0') [] false [], rfl, ?_, ?_⟩
    · rw [value_numeralOf isDigit_of_mem_scaled (List.forall_mem_nil _) (List.forall_mem_nil _),
        List.append_nil, Nat.ofDigitChars_append, Nat.ofDigitChars_ten_toDigits,
        Nat.ofDigitChars_replicate_zero]
      simp [Decimal.value, mul_comm]
    · refine ⟨[], [], ?_, isWhole_scaled hd e, .absent, .absent⟩
      rw [encodeText_sign, List.append_nil, List.append_nil]
      rfl
  | negSucc e =>
    obtain ⟨padded, hpadded⟩ : ∃ padded, padded = List.replicate
      (e + 1 + 1 - (Nat.toDigits 10 c).length) '0' ++ Nat.toDigits 10 c := ⟨_, rfl⟩
    obtain ⟨hlength, hwhole⟩ := isWhole_take_padded hd hpadded
    have hdigits : ∀ x ∈ padded, x.isDigit = true := hpadded ▸ isDigit_of_mem_padded
    have htake : ∀ x ∈ padded.take (padded.length - (e + 1)), x.isDigit = true :=
      fun x hx => hdigits x (List.mem_of_mem_take hx)
    have hdrop : ∀ x ∈ padded.drop (padded.length - (e + 1)), x.isDigit = true :=
      fun x hx => hdigits x (List.mem_of_mem_drop hx)
    have hfraction : padded.drop (padded.length - (e + 1)) ≠ [] := by
      rw [Ne, List.drop_eq_nil_iff]
      omega
    refine ⟨numeralOf negative (padded.take (padded.length - (e + 1)))
      (padded.drop (padded.length - (e + 1))) false [], rfl, ?_, ?_⟩
    · rw [value_numeralOf htake hdrop (List.forall_mem_nil _), List.take_append_drop,
        List.length_drop, hpadded, ofDigitChars_padded, ← hpadded]
      congr 2
      simp only [Bool.false_eq_true, if_false, Nat.ofDigitChars_nil]
      omega
    · refine ⟨0x2E :: encodeText (padded.drop (padded.length - (e + 1))), [], ?_, hwhole,
        .present (isDigits_encodeText hdrop hfraction), .absent⟩
      rw [encodeText_sign, List.append_nil]
      simp only [Decimal.positional, Decimal.digits, ← hpadded, Utf8.encodeText_append]
      rfl

/-- A decimal is written in scientific form. -/
theorem exists_numeral_scientific (d : Decimal) (negative : Bool) :
    ∃ numeral : Numeral, numeral.negative = negative ∧ numeral.toDecimal.value = d.value ∧
      numeral.Spells (encodeText ((if negative then ['-'] else []) ++ d.scientific)) := by
  obtain ⟨x, xs, hx⟩ := List.exists_cons_of_ne_nil (@Nat.toDigits_ne_nil d.coefficient 10)
  have hdigits : ∀ y ∈ x :: xs, y.isDigit = true := hx ▸ isDigit_of_mem_toDigits
  have hfirst : ∀ y ∈ [x], y.isDigit = true := by simpa using hdigits x List.mem_cons_self
  have hrest : ∀ y ∈ xs, y.isDigit = true := fun y hy => hdigits y (List.mem_cons_of_mem _ hy)
  have hlead : d.leadingExponent = d.exponent + xs.length := by
    rw [Decimal.leadingExponent, Decimal.digits, hx, List.length_cons]
    omega
  -- The exponent has two digits at least, and never more zeros than it takes.
  obtain ⟨e, he⟩ : ∃ e, e = List.replicate
    (2 - (Nat.toDigits 10 d.leadingExponent.natAbs).length) '0' ++
      Nat.toDigits 10 d.leadingExponent.natAbs := ⟨_, rfl⟩
  have hexponent : ∀ y ∈ e, y.isDigit = true := he ▸ isDigit_of_mem_padded
  have hexponent' : IsDigits (encodeText e) := by
    refine isDigits_encodeText hexponent ?_
    rw [he]
    simp [Nat.toDigits_ne_nil]
  refine ⟨numeralOf negative [x] xs (decide (d.leadingExponent < 0)) e, rfl, ?_, ?_⟩
  · rw [value_numeralOf hfirst hrest hexponent, List.singleton_append, ← hx,
      Nat.ofDigitChars_ten_toDigits, he, ofDigitChars_padded]
    congr 2
    split <;> · rename_i h; rw [decide_eq_true_iff] at h; omega
  · refine ⟨encodeText ((if xs = [] then [] else ['.']) ++ xs),
      encodeText ('e' :: (if d.leadingExponent < 0 then '-' else '+') :: e), ?_,
      isWhole_encodeText hfirst (List.cons_ne_nil _ _) fun more hmore => ?_, ?_, ?_⟩
    · rw [encodeText_sign]
      congr 1
      simp only [numeralOf, ← Utf8.encodeText_append]
      simp [Decimal.scientific, Decimal.digits, hx, he]
    · exact (List.cons.inj hmore).2.symm
    · cases xs with
      | nil => exact .absent
      | cons y ys => exact .present (isDigits_encodeText hrest (List.cons_ne_nil _ _))
    · by_cases hneg : d.leadingExponent < 0
      · simp only [numeralOf, hneg, if_true, decide_true]
        exact .minus (.inl rfl) hexponent'
      · simp only [numeralOf, hneg, if_false, decide_false]
        exact .plus (.inl rfl) hexponent'

/-- A decimal that is not zero is written as a number of its value. -/
theorem exists_numeral_text {d : Decimal} (hd : 0 < d.coefficient) (negative : Bool) :
    ∃ numeral : Numeral, numeral.negative = negative ∧ numeral.toDecimal.value = d.value ∧
      numeral.Spells (encodeText ((if negative then ['-'] else []) ++ d.text)) := by
  rw [Decimal.text]
  by_cases h : d.leadingExponent < Decimal.leastPositional
  · rw [if_pos h]
    exact exists_numeral_scientific d negative
  · rw [if_neg h]
    exact exists_numeral_positional hd negative

/-! ## Doubles -/

/-- A double without units is zero. -/
theorem eq_zero_of_unitsOf {m : Nat} (h : unitsOf m = 0) : m = 0 := by
  by_contra hne
  have := Binary64.unitsOf_strictMono (Nat.pos_of_ne_zero hne)
  omega

/-- A whole number is written as a number that means it. -/
theorem exists_numeral_integerText {x : Binary64} {n : Int} (hx : x.isFinite = true)
    (h : x.toInt? = some n) :
    ∃ numeral : Numeral, numeral.Spells (encodeText (integerText n)) ∧
      numeral.Denotes x.dropZeroSign := by
  unfold Binary64.toInt? at h
  split at h
  · rename_i hwhole
    have hunits : unitsOf x.magnitude % one = 0 := by
      simpa using (Bool.and_eq_true_iff.1 hwhole).2
    obtain ⟨k, hk⟩ := Nat.dvd_of_mod_eq_zero hunits
    have hdiv : unitsOf x.magnitude / one = k := by
      rw [hk, Nat.mul_div_cancel_left _ Binary64.one_pos]
    have hvalue : valueOf x.magnitude = k := by
      rw [valueOf, hk, Nat.cast_mul, mul_div_cancel_left₀ _ Binary64.cast_one_pos.ne']
    have hzero : x.magnitude = 0 ↔ k = 0 := by
      refine ⟨?_, fun h0 => eq_zero_of_unitsOf (by rw [hk, h0, Nat.mul_zero])⟩
      intro h0
      rw [h0, Binary64.valueOf_zero] at hvalue
      exact_mod_cast hvalue.symm
    rw [hdiv] at h
    have htext : integerText n = (if x.dropZeroSign.negative then ['-'] else []) ++
        Nat.toDigits 10 k := by
      cases h
      unfold integerText Binary64.dropZeroSign
      by_cases hk0 : k = 0
      · simp [hk0, hzero.2 hk0]
      · cases hneg : x.negative <;> simp [hneg, mt hzero.1 hk0, Nat.pos_of_ne_zero hk0]
    obtain ⟨numeral, hsign, hnumeral, hspells⟩ := exists_numeral_toDigits k x.dropZeroSign.negative
    refine ⟨numeral, htext ▸ hspells, hsign.symm, ?_, ?_⟩
    · rwa [Binary64.isFinite_dropZeroSign]
    · rw [hnumeral, ← hvalue, Binary64.magnitude_dropZeroSign]
      exact Binary64.isNearest_valueOf (of_decide_eq_true hx).le
  · cases h

/-- A finite double is written as a number that means it, apart from the sign of zero. -/
theorem exists_numeral_binary64 {x : Binary64} (hx : x.isFinite = true) :
    ∃ numeral : Numeral, numeral.Spells (encodeText x.text) ∧ numeral.Denotes x.dropZeroSign := by
  have hlt : x.magnitude < infinity := of_decide_eq_true hx
  have hnan : x.isNaN = false := decide_eq_false (Nat.lt_asymm hlt)
  cases hint : x.toInt? with
  | some n =>
    have htext : x.text = integerText n := by
      simp [Binary64.text, hnan, hx, hint]
    rw [htext]
    exact exists_numeral_integerText hx hint
  | none =>
    have htext : x.text = (if x.negative then ['-'] else []) ++
        (Decimal.shortest x.magnitude).text := by
      simp [Binary64.text, hnan, hx, hint]
    -- The digits read back, so they are not all zeros, and the double is the nearest to them.
    have hreads := Decimal.toMagnitude_shortest hlt
    have hne : x.magnitude ≠ 0 := by
      intro h0
      simp [Binary64.toInt?, hx, h0, unitsOf] at hint
    have hpos : 0 < (Decimal.shortest x.magnitude).coefficient := by
      refine Nat.pos_of_ne_zero fun h0 => hne ?_
      rw [← hreads, Decimal.toMagnitude, if_pos h0]
    obtain ⟨numeral, hsign, hvalue, hspells⟩ := exists_numeral_text hpos x.negative
    refine ⟨numeral, htext ▸ hspells, ?_, ?_, ?_⟩
    · rw [Binary64.dropZeroSign, if_neg hne, hsign]
    · rwa [Binary64.isFinite_dropZeroSign]
    · rw [hvalue, Binary64.magnitude_dropZeroSign]
      exact (Decimal.toMagnitude_eq_iff hlt).1 hreads

end Document

end StrictJson
