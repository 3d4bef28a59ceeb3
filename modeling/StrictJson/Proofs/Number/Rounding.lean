import Mathlib.Data.Rat.Cast.Order
import Mathlib.Order.Monotone.Basic
import Mathlib.Tactic.FieldSimp
import Mathlib.Tactic.Linarith
import Mathlib.Tactic.NormNum
import Mathlib.Tactic.Positivity
import Mathlib.Tactic.Push
import Mathlib.Tactic.Ring
import StrictJson.Number.Decimal

/-!
# Rounding to doubles

`IsNearest` says which double a number rounds to: the nearest, and of two equally near the one of
even magnitude. `nearest` and `Decimal.toMagnitude` compute it (`isNearest_nearest`,
`Decimal.isNearest_toMagnitude`), and there is only one (`IsNearest.unique`).
-/

namespace StrictJson

namespace Binary64

/-! ## Values -/

/-- The absolute value of a double of magnitude `m`. The magnitude of the infinities counts as the
number that would come after the last finite double, `2 ^ 1024`. -/
def valueOf (m : Nat) : ℚ :=
  unitsOf m / one

/-- The double nearest to `q` has the magnitude `m`; a tie goes to the even magnitude. That of the
infinities means that `q` is out of range. -/
structure IsNearest (q : ℚ) (m : Nat) : Prop where
  le_infinity : m ≤ infinity
  abs_le : ∀ m' ≤ infinity, |q - valueOf m| ≤ |q - valueOf m'|
  even : ∀ m' ≤ infinity, m' ≠ m → |q - valueOf m| = |q - valueOf m'| → m % 2 = 0

/-- The number of units in one, as a power. -/
theorem one_eq : one = 2 ^ 1074 := by
  rw [one, Nat.pow_eq]

/-- The number of units of a magnitude, with powers. -/
theorem unitsOf_eq (m : Nat) : unitsOf m =
    if m < 2 ^ 52 then m else (2 ^ 52 + m % 2 ^ 52) * 2 ^ (m / 2 ^ 52 - 1) := by
  simp only [unitsOf, Nat.pow_eq]

/-- There are units in one. -/
theorem one_pos : 0 < one := by
  rw [one_eq]
  exact Nat.two_pow_pos _

/-- There are units in one, as a rational number. -/
theorem cast_one_pos : (0 : ℚ) < (one : ℕ) :=
  Nat.cast_pos.2 one_pos

/-- Magnitudes on one grid: `shift` is zero or the first of 53 digits is set. -/
theorem unitsOf_shift {shift k : Nat} (hk : k ≤ 2 ^ 53) (h : shift = 0 ∨ 2 ^ 52 ≤ k) :
    unitsOf (shift * 2 ^ 52 + k) = k * 2 ^ shift := by
  rw [unitsOf_eq]
  by_cases hsmall : shift * 2 ^ 52 + k < 2 ^ 52
  · obtain rfl : shift = 0 := by omega
    rw [if_pos hsmall, Nat.zero_mul, Nat.zero_add, Nat.pow_zero, Nat.mul_one]
  · rw [if_neg hsmall]
    have hge : 2 ^ 52 ≤ k := by omega
    by_cases hlt : k < 2 ^ 53
    · have hdiv : (shift * 2 ^ 52 + k) / 2 ^ 52 = shift + 1 := by omega
      have hmod : (shift * 2 ^ 52 + k) % 2 ^ 52 = k - 2 ^ 52 := by omega
      rw [hdiv, hmod, Nat.add_sub_cancel, Nat.add_sub_cancel' hge]
    · -- The upper end of the grid is the lower end of the next one.
      obtain rfl : k = 2 ^ 53 := by omega
      have hdiv : (shift * 2 ^ 52 + 2 ^ 53) / 2 ^ 52 = shift + 2 := by omega
      have hmod : (shift * 2 ^ 52 + 2 ^ 53) % 2 ^ 52 = 0 := by omega
      rw [hdiv, hmod, show shift + 2 - 1 = shift + 1 by omega, Nat.pow_succ]
      omega

/-- Every magnitude is on a grid together with the next one. -/
theorem exists_grid (m : Nat) :
    ∃ shift k, m = shift * 2 ^ 52 + k ∧ k < 2 ^ 53 ∧ (shift = 0 ∨ 2 ^ 52 ≤ k) := by
  by_cases h : m < 2 ^ 52
  · exact ⟨0, m, by omega, by omega, .inl rfl⟩
  · exact ⟨m / 2 ^ 52 - 1, m - (m / 2 ^ 52 - 1) * 2 ^ 52, by omega, by omega, by omega⟩

/-- The next magnitude belongs to a greater value. -/
theorem unitsOf_strictMono : StrictMono unitsOf := by
  apply strictMono_nat_of_lt_succ
  intro m
  -- Both neighbours are on the grid of the lower one, at the factors `k` and `k + 1`.
  obtain ⟨shift, k, rfl, hk, h⟩ := exists_grid m
  rw [unitsOf_shift (Nat.le_of_lt hk) h, Nat.add_assoc, unitsOf_shift hk (by omega)]
  exact Nat.mul_lt_mul_of_pos_right (Nat.lt_succ_self k) (Nat.two_pow_pos shift)

/-- Greater magnitudes stand for greater numbers. -/
theorem valueOf_strictMono : StrictMono valueOf := by
  intro m m' h
  exact div_lt_div_of_pos_right (by exact_mod_cast unitsOf_strictMono h) cast_one_pos

/-- A subnormal magnitude is a number of units. -/
theorem valueOf_of_lt {m : Nat} (h : m < 2 ^ 52) : valueOf m = m / one := by
  rw [valueOf, unitsOf_eq, if_pos h]

/-- The magnitude zero stands for zero. -/
theorem valueOf_zero : valueOf 0 = 0 := by
  rw [valueOf_of_lt (by decide), Nat.cast_zero, zero_div]

/-! ## Nearest values -/

/-- There is only one nearest double. -/
theorem IsNearest.unique {q : ℚ} {m m' : Nat} (h : IsNearest q m) (h' : IsNearest q m') :
    m = m' := by
  -- Two of them would be equally near and even, and a double between them nearer.
  wlog hlt : m < m' generalizing m m'
  · rcases Nat.lt_trichotomy m m' with hlt' | heq | hgt
    · exact absurd hlt' hlt
    · exact heq
    · exact (this h' h hgt).symm
  -- Both are even, so they are no neighbours: the next one above `m` is below `m'`.
  have heq := le_antisymm (h.abs_le m' h'.le_infinity) (h'.abs_le m h.le_infinity)
  have heven := h.even m' h'.le_infinity (Nat.ne_of_gt hlt) heq
  have heven' := h'.even m h.le_infinity (Nat.ne_of_lt hlt) heq.symm
  have hvalue := valueOf_strictMono hlt
  -- Equally far from both, `q` is half way, since the values differ.
  have hmid : q - valueOf m = valueOf m' - q := by
    rcases abs_eq_abs.1 heq with hq | hq <;> linarith
  have hnext := h.abs_le (m + 1) (by have := h'.le_infinity; omega)
  have hlo := valueOf_strictMono (Nat.lt_succ_self m)
  have hhi : valueOf (m + 1) < valueOf m' := valueOf_strictMono (by omega)
  rw [abs_of_nonneg (by linarith : 0 ≤ q - valueOf m)] at hnext
  rcases le_abs.1 hnext with hle | hle <;> linarith

/-- The value of a double rounds to that double. -/
theorem isNearest_valueOf {m : Nat} (hm : m ≤ infinity) : IsNearest (valueOf m) m := by
  refine ⟨hm, ?_, ?_⟩
  · intro m' _
    rw [sub_self, abs_zero]
    exact abs_nonneg _
  · intro m' _ hne heq
    rw [sub_self, abs_zero, eq_comm, abs_eq_zero, sub_eq_zero] at heq
    exact absurd (valueOf_strictMono.injective heq).symm hne

/-- A number of at least `2 ^ 1024` is out of range. -/
theorem isNearest_infinity {q : ℚ} (h : valueOf infinity ≤ q) : IsNearest q infinity := by
  have hfar : ∀ m' ≤ infinity, m' ≠ infinity → |q - valueOf infinity| < |q - valueOf m'| := by
    intro m' hm' hne
    have := valueOf_strictMono (Nat.lt_of_le_of_ne hm' hne)
    rw [abs_of_nonneg (by linarith), abs_of_nonneg (by linarith)]
    linarith
  refine ⟨Nat.le_refl _, ?_, ?_⟩
  · intro m' hm'
    by_cases hne : m' = infinity
    · rw [hne]
    · exact (hfar m' hm' hne).le
  · intro m' hm' hne heq
    exact absurd heq (hfar m' hm' hne).ne

/-- A number that is nearer to the lower of two neighbouring doubles rounds down. -/
theorem isNearest_below {q : ℚ} {b : Nat} (hb : b ≤ infinity) (hlo : valueOf b ≤ q)
    (h : q - valueOf b < valueOf (b + 1) - q ∨
      q - valueOf b = valueOf (b + 1) - q ∧ b % 2 = 0) : IsNearest q b := by
  have hle : q - valueOf b ≤ valueOf (b + 1) - q := by
    rcases h with h | h
    · exact h.le
    · exact h.1.le
  have habs : |q - valueOf b| = q - valueOf b := abs_of_nonneg (by linarith)
  refine ⟨hb, ?_, ?_⟩
  · intro m' _
    rw [habs, le_abs]
    rcases Nat.lt_or_ge b m' with hm' | hm'
    · have := valueOf_strictMono.monotone (show b + 1 ≤ m' from hm')
      exact .inr (by linarith)
    · have := valueOf_strictMono.monotone hm'
      exact .inl (by linarith)
  · intro m' _ hne heq
    rcases h with h | h
    · rw [habs, eq_comm, abs_eq (by linarith)] at heq
      rcases heq with heq | heq
      · exact absurd (valueOf_strictMono.injective (by linarith : valueOf m' = valueOf b)) hne
      · have hm' : valueOf m' < valueOf (b + 1) := by linarith
        have := valueOf_strictMono.monotone (Nat.lt_succ_iff.1 (valueOf_strictMono.lt_iff_lt.1 hm'))
        have heq' : valueOf m' = valueOf b := by linarith
        exact absurd (valueOf_strictMono.injective heq') hne
    · exact h.2

/-- A number that is nearer to the upper of two neighbouring doubles rounds up. -/
theorem isNearest_above {q : ℚ} {b : Nat} (hb : b + 1 ≤ infinity) (hhi : q ≤ valueOf (b + 1))
    (h : valueOf (b + 1) - q < q - valueOf b ∨
      valueOf (b + 1) - q = q - valueOf b ∧ b % 2 = 1) : IsNearest q (b + 1) := by
  have hle : valueOf (b + 1) - q ≤ q - valueOf b := by
    rcases h with h | h
    · exact h.le
    · exact h.1.le
  have habs : |q - valueOf (b + 1)| = valueOf (b + 1) - q := by
    rw [abs_of_nonpos (by linarith), neg_sub]
  refine ⟨hb, ?_, ?_⟩
  · intro m' _
    rw [habs, le_abs]
    rcases Nat.lt_or_ge b m' with hm' | hm'
    · have := valueOf_strictMono.monotone (show b + 1 ≤ m' from hm')
      exact .inr (by linarith)
    · have := valueOf_strictMono.monotone hm'
      exact .inl (by linarith)
  · intro m' _ hne heq
    rcases h with h | h
    · rw [habs, eq_comm, abs_eq (by linarith)] at heq
      rcases heq with heq | heq
      · have hm' : valueOf b < valueOf m' := by linarith
        have := valueOf_strictMono.monotone (Nat.succ_le_of_lt (valueOf_strictMono.lt_iff_lt.1 hm'))
        have heq' : valueOf m' = valueOf (b + 1) := by
          rw [Nat.succ_eq_add_one] at this
          linarith
        exact absurd (valueOf_strictMono.injective heq') hne
      · exact absurd (valueOf_strictMono.injective
          (by linarith : valueOf m' = valueOf (b + 1))) hne
    · omega

/-! ## Computing the nearest double -/

/-- The grid on which a number of units is rounded has 53 digits, or is that of the least
doubles. -/
theorem grid_bounds (v : Nat) :
    v / 2 ^ (v.log2 - 52) < 2 ^ 53 ∧ (v.log2 - 52 = 0 ∨ 2 ^ 52 ≤ v / 2 ^ (v.log2 - 52)) := by
  constructor
  · rw [Nat.div_lt_iff_lt_mul (Nat.two_pow_pos _), ← Nat.pow_add]
    exact Nat.lt_of_lt_of_le Nat.lt_log2_self (Nat.pow_le_pow_right (by decide) (by omega))
  · by_cases h : v.log2 ≤ 52
    · exact .inl (by omega)
    · refine .inr ?_
      rw [Nat.le_div_iff_mul_le (Nat.two_pow_pos _), ← Nat.pow_add,
        show 52 + (v.log2 - 52) = v.log2 by omega]
      exact Nat.log2_self_le (by rintro rfl; simp at h)

/-- The distances of a fraction of units to the two neighbours on its grid are those of the
remainder to zero and to the distance of the neighbours. -/
theorem grid_distances {num den shift quotient remainder : Nat} (hden : 0 < den)
    (hquotient : quotient < 2 ^ 53) (hshift : shift = 0 ∨ 2 ^ 52 ≤ quotient)
    (hnum : num = den * 2 ^ shift * quotient + remainder) :
    (num : ℚ) / den / one - valueOf (shift * 2 ^ 52 + quotient) = remainder / den / one ∧
      valueOf (shift * 2 ^ 52 + quotient + 1) - (num : ℚ) / den / one =
        ((den * 2 ^ shift : ℕ) - remainder) / den / one := by
  have hbelow : unitsOf (shift * 2 ^ 52 + quotient) = quotient * 2 ^ shift :=
    unitsOf_shift hquotient.le hshift
  have habove : unitsOf (shift * 2 ^ 52 + quotient + 1) = (quotient + 1) * 2 ^ shift := by
    rw [Nat.add_assoc]
    exact unitsOf_shift hquotient (by omega)
  have hden' : (den : ℚ) ≠ 0 := Nat.cast_ne_zero.2 hden.ne'
  have hone := cast_one_pos.ne'
  rw [valueOf, valueOf, hbelow, habove, hnum]
  generalize ((one : ℕ) : ℚ) = u at hone ⊢
  push_cast
  refine ⟨?_, ?_⟩ <;> · field_simp; ring

/-- Rounding to the nearer of the two neighbours on a grid, and in a tie to the even one, gives the
nearest double. -/
theorem isNearest_grid {num den shift quotient remainder : Nat} (hden : 0 < den)
    (hquotient : quotient < 2 ^ 53) (hshift : shift = 0 ∨ 2 ^ 52 ≤ quotient)
    (hnum : num = den * 2 ^ shift * quotient + remainder)
    (hremainder : remainder < den * 2 ^ shift) :
    IsNearest ((num : ℚ) / den / one) (min (shift * 2 ^ 52 +
      if den * 2 ^ shift < 2 * remainder ∨ (2 * remainder = den * 2 ^ shift ∧ quotient % 2 = 1)
      then quotient + 1 else quotient) infinity) := by
  obtain ⟨hlo, hhi⟩ := grid_distances hden hquotient hshift hnum
  have hden' : (0 : ℚ) < den := Nat.cast_pos.2 hden
  have hone := cast_one_pos
  generalize (num : ℚ) / den / one = q at hlo hhi ⊢
  generalize den * 2 ^ shift = grain at hremainder hhi ⊢
  generalize ((one : ℕ) : ℚ) = u at hone hlo hhi
  -- Distances are compared in units of the denominator, where they are whole numbers.
  have hcompare {a b : ℚ} : a / den / u < b / den / u ↔ a < b := by
    rw [div_lt_div_iff_of_pos_right hone, div_lt_div_iff_of_pos_right hden']
  have hequal {a b : ℚ} : a / den / u = b / den / u ↔ a = b := by
    rw [div_left_inj' hone.ne', div_left_inj' hden'.ne']
  have hlo' : valueOf (shift * 2 ^ 52 + quotient) ≤ q := by
    rw [← sub_nonneg, hlo]
    positivity
  have hhi' : q ≤ valueOf (shift * 2 ^ 52 + quotient + 1) := by
    have hle : (0 : ℚ) ≤ (grain : ℚ) - remainder :=
      sub_nonneg.2 (Nat.cast_le.2 hremainder.le)
    rw [← sub_nonneg, hhi]
    positivity
  split
  · rename_i hup
    rw [← Nat.add_assoc]
    by_cases hle : shift * 2 ^ 52 + quotient + 1 ≤ infinity
    · rw [Nat.min_eq_left hle]
      refine isNearest_above hle hhi' ?_
      rw [hlo, hhi, hcompare, hequal, sub_lt_iff_lt_add, sub_eq_iff_eq_add]
      rcases hup with hup | ⟨heq, hodd⟩
      · exact .inl (by exact_mod_cast (by omega : grain < remainder + remainder))
      · exact .inr ⟨by exact_mod_cast (by omega : grain = remainder + remainder), by omega⟩
    · rw [Nat.min_eq_right (by omega)]
      exact isNearest_infinity ((valueOf_strictMono.monotone (by omega)).trans hlo')
  · rename_i hdown
    rw [not_or, not_and] at hdown
    by_cases hle : shift * 2 ^ 52 + quotient ≤ infinity
    · rw [Nat.min_eq_left hle]
      refine isNearest_below hle hlo' ?_
      rw [hlo, hhi, hcompare, hequal, lt_sub_iff_add_lt, eq_sub_iff_add_eq]
      by_cases heq : 2 * remainder = grain
      · have := hdown.2 heq
        exact .inr ⟨by exact_mod_cast (by omega : remainder + remainder = grain), by omega⟩
      · have := hdown.1
        exact .inl (by exact_mod_cast (by omega : remainder + remainder < grain))
    · rw [Nat.min_eq_right (by omega)]
      exact isNearest_infinity ((valueOf_strictMono.monotone (by omega)).trans hlo')

/-- Rounding a fraction of units gives the nearest double. -/
theorem isNearest_nearest (num : Nat) {den : Nat} (hden : 0 < den) :
    IsNearest ((num : ℚ) / den / one) (min (nearest num den) infinity) := by
  obtain ⟨hquotient, hshift⟩ := grid_bounds (num / den)
  rw [Nat.div_div_eq_div_mul] at hquotient hshift
  exact isNearest_grid hden hquotient hshift (Nat.div_add_mod num _).symm
    (Nat.mod_lt _ (Nat.mul_pos hden (Nat.two_pow_pos _)))

end Binary64

namespace Decimal

open Binary64

/-- The number that a decimal denotes. -/
def value (d : Decimal) : ℚ :=
  d.coefficient * (10 : ℚ) ^ d.exponent

/-- A number below half of the least positive double rounds to zero. -/
theorem isNearest_zero {q : ℚ} (h : 0 ≤ q) (h' : q * (2 * one) < 1) : IsNearest q 0 := by
  refine isNearest_below (Nat.zero_le _) (by rw [valueOf_zero]; exact h) (.inl ?_)
  rw [valueOf_zero, Nat.zero_add, valueOf_of_lt (by decide), sub_zero, lt_sub_iff_add_lt,
    lt_div_iff₀ cast_one_pos, Nat.cast_one]
  linarith

/-- The value of the magnitude of the infinities. -/
theorem valueOf_infinity : valueOf infinity = 2 ^ 1024 := by
  have hunits : unitsOf infinity = 2 ^ 52 * 2 ^ 2046 := by
    have : infinity = 2046 * 2 ^ 52 + 2 ^ 52 := by decide
    rw [this, unitsOf_shift (by decide) (.inr (Nat.le_refl _))]
  have hone : 2 ^ 52 * 2 ^ 2046 = 2 ^ 1024 * one := by
    rw [one_eq, ← Nat.pow_add, ← Nat.pow_add]
  rw [valueOf, div_eq_iff cast_one_pos.ne', hunits, hone, Nat.cast_mul, Nat.cast_pow,
    Nat.cast_ofNat]

/-- All finite doubles have 309 digits at most before the point. -/
theorem valueOf_infinity_le : valueOf infinity ≤ 10 ^ 309 := by
  rw [valueOf_infinity]
  calc (2 : ℚ) ^ 1024 = (2 ^ 93) ^ 11 * 2 := by rw [← pow_mul, ← pow_succ]
    _ ≤ (10 ^ 28) ^ 11 * 10 := by gcongr <;> norm_num
    _ = 10 ^ 309 := by rw [← pow_mul, ← pow_succ]

/-- No finite double comes up to a multiple of a power of ten of so many digits. -/
theorem valueOf_infinity_le_mul {c e : Nat} (hc : c ≠ 0) (he : 309 ≤ e) :
    valueOf infinity ≤ (c : ℚ) * 10 ^ e := by
  have hc' : (1 : ℚ) ≤ c := by exact_mod_cast Nat.one_le_iff_ne_zero.2 hc
  calc valueOf infinity ≤ 10 ^ 309 := valueOf_infinity_le
    _ ≤ 10 ^ e := pow_le_pow_right₀ (by norm_num) he
    _ ≤ c * 10 ^ e := le_mul_of_one_le_left (by positivity) hc'

/-- A positive number of more than 310 digits is out of range. -/
theorem isNearest_of_huge {c e : Nat} (hc : c ≠ 0) (he : 310 < e) :
    IsNearest ((c : ℚ) * 10 ^ e) infinity :=
  isNearest_infinity (valueOf_infinity_le_mul hc (by omega))

/-- A number that is divided by a power of ten far beyond its own digits rounds to zero. -/
theorem isNearest_of_tiny {c k : Nat} (h : c.log2 + 1080 ≤ 3 * k) :
    IsNearest ((c : ℚ) / 10 ^ k) 0 := by
  apply isNearest_zero (by positivity)
  have hc : (c : ℚ) < 2 ^ (c.log2 + 1) := by exact_mod_cast Nat.lt_log2_self
  have hone : (2 : ℚ) * (one : ℕ) ≤ 2 ^ 1079 := by
    rw [one_eq]
    push_cast
    rw [← pow_succ']
    exact pow_le_pow_right₀ (by norm_num) (by norm_num)
  rw [div_mul_eq_mul_div, div_lt_one (by positivity)]
  calc (c : ℚ) * (2 * one) ≤ c * 2 ^ 1079 := by
        exact mul_le_mul_of_nonneg_left hone (Nat.cast_nonneg c)
    _ < 2 ^ (c.log2 + 1) * 2 ^ 1079 := mul_lt_mul_of_pos_right hc (by positivity)
    _ = 2 ^ (c.log2 + 1080) := by rw [← pow_add]
    _ ≤ 2 ^ (3 * k) := pow_le_pow_right₀ (by norm_num) h
    _ = 8 ^ k := by rw [pow_mul]; norm_num
    _ ≤ 10 ^ k := pow_le_pow_left₀ (by norm_num) (by norm_num) _

/-- A fraction that is written in units is rounded as itself. -/
theorem isNearest_fraction (c : Nat) {den : Nat} (hden : 0 < den) :
    IsNearest ((c : ℚ) / den) (min (nearest (c * one) den) infinity) := by
  have h := isNearest_nearest (c * one) hden
  have hvalue : ((c * one : ℕ) : ℚ) / den / one = c / den := by
    have := cast_one_pos.ne'
    have : (den : ℚ) ≠ 0 := Nat.cast_ne_zero.2 hden.ne'
    push_cast
    field_simp
  rwa [hvalue] at h

/-- Reading a decimal gives the nearest double. -/
theorem isNearest_toMagnitude (d : Decimal) : IsNearest d.value (min d.toMagnitude infinity) := by
  obtain ⟨c, e⟩ := d
  unfold toMagnitude value
  by_cases hc : c = 0
  · rw [if_pos hc, Nat.min_eq_left (Nat.zero_le _)]
    rw [hc, Nat.cast_zero, zero_mul]
    apply isNearest_zero (le_refl 0)
    rw [zero_mul]
    exact zero_lt_one
  rw [if_neg hc]
  cases e with
  | ofNat e =>
    by_cases he : 310 < e
    · simp only [he, if_true, Nat.min_self]
      exact isNearest_of_huge hc he
    · simp only [he, if_false]
      have h := isNearest_fraction (c * 10 ^ e) Nat.one_pos
      rwa [Nat.cast_one, div_one, Nat.cast_mul, Nat.cast_pow, Nat.cast_ofNat] at h
  | negSucc e =>
    have hvalue : (c : ℚ) * 10 ^ (Int.negSucc e) = c / 10 ^ (e + 1) := by
      rw [zpow_negSucc, div_eq_mul_inv]
    rw [hvalue]
    by_cases he : c.log2 + 1080 ≤ 3 * (e + 1)
    · simp only [he, if_true]
      rw [Nat.min_eq_left (Nat.zero_le _)]
      exact isNearest_of_tiny he
    · simp only [he, if_false]
      have h := isNearest_fraction c (show 0 < 10 ^ (e + 1) from Nat.pow_pos (by decide))
      rwa [Nat.cast_pow, Nat.cast_ofNat] at h

/-- A decimal reads as a finite double exactly if that is the nearest. -/
theorem toMagnitude_eq_iff {d : Decimal} {m : Nat} (hm : m < infinity) :
    d.toMagnitude = m ↔ IsNearest d.value m := by
  have h := isNearest_toMagnitude d
  constructor
  · intro heq
    rwa [heq, Nat.min_eq_left hm.le] at h
  · intro h'
    have := h.unique h'
    omega

/-! ## Shortest decimals -/

/-- A hit on a grid reads back. -/
theorem toMagnitude_of_onGrid? {m c : Nat} {g : Int} (h : onGrid? m g = some c) :
    toMagnitude ⟨c, g⟩ = m := by
  simp only [onGrid?] at h
  split at h
  · rename_i hbelow habove
    split at h
    · cases h
      exact beq_iff_eq.1 hbelow
    · cases h
      exact beq_iff_eq.1 habove
  · rename_i hbelow _
    cases h
    exact beq_iff_eq.1 hbelow
  · rename_i _ habove
    cases h
    exact beq_iff_eq.1 habove
  · cases h

/-- On a grid that is fine enough, a number of units is exact. -/
theorem value_of_units (u k : Nat) : value ⟨u * 5 ^ k, -k⟩ = (u : ℚ) / (2 ^ k : ℕ) := by
  have h : (10 : ℚ) ^ k = 2 ^ k * 5 ^ k := by rw [← mul_pow]; norm_num
  rw [value, zpow_neg, zpow_natCast, h]
  push_cast
  field_simp

/-- What the search for a hit ends with reads back. -/
theorem toMagnitude_firstHit {m : Nat} (hm : m < infinity) (k : Nat) :
    (firstHit m k).toMagnitude = m := by
  induction k with
  | zero =>
    -- The search ends at the grid of the least unit, on which the value is exact.
    refine (toMagnitude_eq_iff hm).2 ?_
    have hvalue : (firstHit m 0).value = valueOf m := value_of_units (unitsOf m) 1074
    rw [hvalue]
    exact isNearest_valueOf hm.le
  | succ k ih =>
    rw [firstHit]
    split
    · rename_i c hc
      exact toMagnitude_of_onGrid? hc
    · exact ih

/-- The shortest decimal of a finite double reads back. -/
theorem toMagnitude_shortest {m : Nat} (hm : m < infinity) : (shortest m).toMagnitude = m :=
  toMagnitude_firstHit hm _

end Decimal

end StrictJson
