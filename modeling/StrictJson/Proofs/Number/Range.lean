import StrictJson.Proofs.Number.Shortest

/-!
# The range of doubles

A number is out of range if it is at least half way from the last finite double to the number that
would come next, `2 ^ 1024`: in the tie the last finite double, of odd magnitude, is not taken. Half
way is `2 ^ 1024 - 2 ^ 970`, so whole numbers below that have a finite double
(`isFinite_ofInt_iff`).
-/

namespace StrictJson.Binary64

/-- The value of the last finite double. -/
theorem valueOf_last : valueOf (infinity - 1) = 2 ^ 1024 - 2 ^ 971 := by
  have hgrid : infinity - 1 = 2045 * 2 ^ 52 + (2 ^ 53 - 1) := by decide
  have hunits : unitsOf (infinity - 1) = (2 ^ 53 - 1) * 2 ^ 971 * one := by
    rw [hgrid, unitsOf_shift (by decide) (.inr (by decide)), one_eq, Nat.mul_assoc, ← Nat.pow_add]
  have hcast : ((2 ^ 53 - 1 : ℕ) : ℚ) = 2 ^ 53 - 1 := by norm_num
  rw [valueOf, hunits, Nat.cast_mul, mul_div_cancel_right₀ _ cast_one_pos.ne', Nat.cast_mul, hcast,
    Nat.cast_pow, Nat.cast_ofNat, sub_mul, one_mul, ← pow_add]

/-- The numbers that are out of range. -/
theorem isNearest_infinity_iff {q : ℚ} : IsNearest q infinity ↔ 2 ^ 1024 - 2 ^ 970 ≤ q := by
  have hnext : infinity - 1 + 1 = infinity := by decide
  have hlt : valueOf (infinity - 1) < valueOf infinity :=
    valueOf_strictMono (by decide)
  have hmiddle : valueOf (infinity - 1) + valueOf infinity = 2 * (2 ^ 1024 - 2 ^ 970) := by
    rw [valueOf_last, Decimal.valueOf_infinity, mul_sub, ← pow_succ' _ 970, sub_add_eq_add_sub,
      ← two_mul]
  generalize (2 : ℚ) ^ 1024 - 2 ^ 970 = threshold at hmiddle ⊢
  constructor
  · intro h
    have := (abs_sub_le_iff' hlt).1 (h.abs_le _ (Nat.sub_le _ _))
    linarith
  · intro h
    rcases le_or_gt (valueOf infinity) q with hq | hq
    · exact isNearest_infinity hq
    · have habove := isNearest_above (q := q) hnext.le (hnext.symm ▸ hq.le)
      rw [hnext] at habove
      refine habove ?_
      rcases lt_or_eq_of_le h with h | h
      · exact .inl (by linarith)
      · exact .inr ⟨by linarith, by decide⟩

/-- A whole number becomes the nearest double. -/
theorem isNearest_ofInt (n : Int) : IsNearest n.natAbs (ofInt n).magnitude := by
  have h := Decimal.isNearest_fraction n.natAbs Nat.one_pos
  rwa [Nat.cast_one, div_one] at h

/-- The whole numbers that have a finite double. -/
theorem isFinite_ofInt_iff (n : Int) :
    (ofInt n).isFinite = true ↔ n.natAbs < 2 ^ 1024 - 2 ^ 970 := by
  have h := isNearest_ofInt n
  have hinfinite : (ofInt n).magnitude = infinity ↔ (2 : ℚ) ^ 1024 - 2 ^ 970 ≤ n.natAbs := by
    rw [← isNearest_infinity_iff]
    exact ⟨fun heq => heq ▸ h, fun h' => h.unique h'⟩
  have hcast : ((2 ^ 1024 - 2 ^ 970 : ℕ) : ℚ) = 2 ^ 1024 - 2 ^ 970 := by
    have hle : (2 ^ 970 : ℕ) ≤ 2 ^ 1024 := pow_le_pow_right₀ one_le_two (by decide : 970 ≤ 1024)
    rw [Nat.cast_sub hle, Nat.cast_pow, Nat.cast_pow, Nat.cast_ofNat]
  rw [← hcast, Nat.cast_le] at hinfinite
  rw [isFinite, decide_eq_true_eq, h.le_infinity.lt_iff_ne, Ne, hinfinite, Nat.not_le]

/-- The whole numbers whose nearest double is finite. -/
theorem exists_isNearest_iff (n : Nat) :
    (∃ m < infinity, IsNearest n m) ↔ n < 2 ^ 1024 - 2 ^ 970 := by
  have h : IsNearest n (ofInt n).magnitude := isNearest_ofInt n
  have hfinite := isFinite_ofInt_iff n
  rw [Int.natAbs_natCast] at hfinite
  rw [← hfinite, isFinite, decide_eq_true_eq]
  constructor
  · rintro ⟨m, hm, hnearest⟩
    rwa [h.unique hnearest]
  · intro hlt
    exact ⟨_, hlt, h⟩

end StrictJson.Binary64
