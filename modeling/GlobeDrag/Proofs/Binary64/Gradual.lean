import GlobeDrag.Proofs.Binary64.Drift

/-!
# Rounding at the ends of the range

Below the largest double nothing is rounded to infinity. Towards zero the spacing of the doubles stops to shrink, so that rounding moves in
proportion or by half the smallest spacing. How far several roundings in a row lead away from a number is counted in both units.

Main statements: `isFinite_of_abs_le`, `abs_nearest_sub_le_add`, and for one more operation `IsNear.rounded`, `IsNear.mul` and
`IsNear.div`.
-/

namespace GlobeDrag.Binary64

/-! ## The largest double -/

/-- The largest double. -/
def greatest : ℚ := (2 ^ 53 - 1) * 2 ^ (971 : ℤ)

/-- A number up to the largest double is not rounded to infinity. -/
theorem isFinite_of_abs_le {z : Float} {r : ℚ} (hz : IsNearest z r) (h : |r| ≤ greatest) : z.isFinite = true := by
  have onGrid : OnGrid greatest := ⟨2 ^ 53 - 1, 971, by norm_num, by norm_num, congrArg (· * _) (by norm_num)⟩
  obtain ⟨low, high⟩ := abs_le.1 h
  refine (hz.of_abs_lt ((abs_le.2 ⟨le_nearest onGrid.neg low, nearest_le onGrid high⟩).trans_lt ?_)).1
  calc greatest < 2 ^ 53 * 2 ^ (971 : ℤ) := mul_lt_mul_of_pos_right (by norm_num) (two_zpow_pos _)
    _ = limit := two_zpow_mul_two_zpow (a := 53) (b := 971) (by norm_num)

theorem two_pow_le_greatest {j : ℕ} (h : j ≤ 1023) : (2 : ℚ) ^ j ≤ greatest := by
  calc (2 : ℚ) ^ j ≤ 2 ^ 1023 := pow_le_pow_right₀ (by norm_num) h
    _ = 2 ^ 52 * 2 ^ (971 : ℤ) := by rw [← zpow_natCast, ← zpow_natCast (2 : ℚ) 52, ← zpow_add₀ (by norm_num)]; norm_num
    _ ≤ greatest := mul_le_mul_of_nonneg_right (by norm_num) (two_zpow_pos _).le

/-- The double nearest to a number between one and the largest double is one rounding away. -/
theorem IsNearest.of_one_le {z : Float} {r : ℚ} (hz : IsNearest z r) (h1 : 1 ≤ r) (h2 : r ≤ greatest) :
    z.isFinite = true ∧ |value z - r| ≤ roundoff * r := by
  have size : |r| = r := abs_of_nonneg (by linarith)
  have finite := isFinite_of_abs_le hz (size.trans_le h2)
  refine ⟨finite, ?_⟩
  have near := abs_nearest_sub_le (q := r) (by
    rw [size]
    exact le_trans (zpow_le_one_of_nonpos₀ (by norm_num) (by norm_num)) h1)
  rwa [← hz.value_of_isFinite finite, size] at near

/-! ## The smallest spacing -/

/-- Half the spacing of the smallest doubles. -/
def halfStep : ℚ := 2 ^ (-1075 : ℤ)

theorem halfStep_pos : 0 < halfStep := two_zpow_pos _

theorem halfStep_le_one : halfStep ≤ 1 := zpow_le_one_of_nonpos₀ (by norm_num) (by norm_num)

theorem two_zpow_div_two : (2 : ℚ) ^ (-1074 : ℤ) / 2 = halfStep := by
  rw [halfStep, show (-1075 : ℤ) = -1074 - 1 by norm_num, zpow_sub_one₀ (by norm_num), div_eq_mul_inv]

/-- A number below half the smallest spacing is rounded to zero. -/
theorem nearest_of_lt_halfStep {q : ℚ} (h0 : 0 < q) (h : q < halfStep) : nearest q = 0 := by
  have spacing : grain q = -1074 := by
    refine le_antisymm (grain_le_of_lt h0.ne' ?_ le_rfl) (le_grain q)
    rw [abs_of_pos h0]
    exact h.trans_le (zpow_le_zpow_right₀ (by norm_num) (by norm_num))
  have whole : nearestWhole (q / 2 ^ grain q) = 0 := by
    rw [nearestWhole_eq_iff, if_pos (by decide), spacing]
    have hp := two_zpow_pos (-1074)
    have half : (2 : ℚ) ^ (-1074 : ℤ) / 2 = halfStep := two_zpow_div_two
    constructor
    · have := div_pos h0 hp
      rw [Int.cast_zero]
      linarith
    · rw [Int.cast_zero, div_le_iff₀ hp]
      linarith
  rw [nearest, whole, Int.cast_zero, zero_mul]

/-- Rounding moves in proportion, or by half the smallest spacing. -/
theorem abs_nearest_sub_le_add (q : ℚ) : |nearest q - q| ≤ roundoff * |q| + halfStep := by
  have hq := mul_nonneg roundoff_pos.le (abs_nonneg q)
  rcases eq_or_ne q 0 with rfl | h0
  · simp [halfStep_pos.le]
  rcases le_or_gt (2 ^ (-1022 : ℤ)) |q| with h | h
  · linarith [abs_nearest_sub_le h, halfStep_pos]
  · have spacing : grain q = -1074 := by
      refine le_antisymm (grain_le_of_lt h0 (h.trans_le ?_) le_rfl) (le_grain q)
      exact zpow_le_zpow_right₀ (by norm_num) (by norm_num)
    have half := abs_nearest_sub_le_grain q
    rw [spacing, two_zpow_div_two] at half
    linarith

/-! ## Roundings in a row -/

/-- A number is `c` roundings and `a` half spacings away from `q`. -/
structure IsNear (c a r q : ℚ) : Prop where
  nonneg : 0 ≤ q
  abs_sub_le : |r - q| ≤ c * roundoff * q + a * halfStep

/-- A few roundings come to little. -/
theorem mul_roundoff_le {c : ℚ} (h : c ≤ 11) : c * roundoff ≤ 1 / 100 := by
  calc c * roundoff ≤ 11 * roundoff := mul_le_mul_of_nonneg_right h roundoff_pos.le
    _ ≤ 1 / 100 := by norm_num [roundoff]

namespace IsNear

variable {c a r q p t : ℚ} {z : Float}

/-- A number that is near is near within larger bounds, too. -/
theorem mono {c' a' : ℚ} (h : IsNear c a r q) (hc : c ≤ c') (ha : a ≤ a') : IsNear c' a' r q := by
  have hu := roundoff_pos
  have hs := halfStep_pos
  have hq := h.nonneg
  refine ⟨hq, h.abs_sub_le.trans ?_⟩
  gcongr

/-- The size of a number that is near. -/
theorem size_le (h : IsNear c a r q) : |r| ≤ (1 + c * roundoff) * q + a * halfStep := by
  have size := abs_add_le (r - q) q
  rw [sub_add_cancel, abs_of_nonneg h.nonneg] at size
  linarith [h.abs_sub_le]

/-- One more rounding. -/
theorem rounded (h : IsNear c a r q) (hc : c ≤ 10) (ha : a ≤ 10) : IsNear (c + 11 / 10) (a + 11 / 10) (nearest r) q := by
  have hs := halfStep_pos
  have size := mul_le_mul_of_nonneg_left h.size_le roundoff_pos.le
  have first := mul_le_mul_of_nonneg_right (mul_roundoff_le (hc.trans (by norm_num))) (mul_nonneg roundoff_pos.le h.nonneg)
  have second := mul_le_mul_of_nonneg_right (mul_roundoff_le (ha.trans (by norm_num))) hs.le
  refine ⟨h.nonneg, ?_⟩
  calc |nearest r - q| = |nearest r - r + (r - q)| := by rw [sub_add_sub_cancel]
    _ ≤ |nearest r - r| + |r - q| := abs_add_le _ _
    _ ≤ (roundoff * |r| + halfStep) + (c * roundoff * q + a * halfStep) :=
        add_le_add (abs_nearest_sub_le_add r) h.abs_sub_le
    _ ≤ (c + 11 / 10) * roundoff * q + (a + 11 / 10) * halfStep := by
        linarith [mul_nonneg roundoff_pos.le h.nonneg]

/-- The double nearest to what is near a number that is not too large. -/
theorem of_isNearest (h : IsNear c a r q) (hz : IsNearest z r) (top : q ≤ 2 ^ 64) (hc : c ≤ 10) (ha : a ≤ 10) :
    z.isFinite = true ∧ IsNear (c + 11 / 10) (a + 11 / 10) (value z) q := by
  have factor := mul_le_mul_of_nonneg_right (mul_roundoff_le (hc.trans (by norm_num))) h.nonneg
  have steps := mul_le_mul_of_nonneg_right ha halfStep_pos.le
  have finite : z.isFinite = true := by
    refine isFinite_of_abs_le hz (h.size_le.trans (le_trans ?_ (two_pow_le_greatest (j := 66) (by norm_num))))
    linarith [halfStep_le_one]
  refine ⟨finite, ?_⟩
  rw [hz.value_of_isFinite finite]
  exact h.rounded hc ha

/-- The product with a rounded number. -/
theorem mul (h : IsNear c 0 r q) (hc0 : 0 ≤ c) (hc : c ≤ 10) (ht : 0 < t) (hp : |p - t| ≤ roundoff * t) :
    IsNear (c + 11 / 10) 0 (r * p) (q * t) := by
  have hu := roundoff_pos
  have hq := h.nonneg
  have cu := mul_roundoff_le (hc.trans (by norm_num))
  have size : |p| ≤ (1 + roundoff) * t := by
    have := abs_add_le (p - t) t
    rw [sub_add_cancel, abs_of_pos ht] at this
    linarith
  have qt := mul_nonneg hq ht.le
  have move : |r - q| ≤ c * roundoff * q := by
    have := h.abs_sub_le
    rwa [zero_mul, add_zero] at this
  refine ⟨qt, ?_⟩
  calc |r * p - q * t| = |(r - q) * p + q * (p - t)| := by ring_nf
    _ ≤ |(r - q) * p| + |q * (p - t)| := abs_add_le _ _
    _ = |r - q| * |p| + q * |p - t| := by rw [abs_mul, abs_mul, abs_of_nonneg hq]
    _ ≤ c * roundoff * q * ((1 + roundoff) * t) + q * (roundoff * t) := by gcongr
    _ = (c + 1 + c * roundoff) * (roundoff * (q * t)) := by ring
    _ ≤ (c + 11 / 10) * (roundoff * (q * t)) := mul_le_mul_of_nonneg_right (by linarith) (mul_nonneg hu.le qt)
    _ = (c + 11 / 10) * roundoff * (q * t) + 0 * halfStep := by ring

/-- The quotient by a rounded number. -/
theorem div (h : IsNear c a r q) (hc0 : 0 ≤ c) (ha0 : 0 ≤ a) (hc : c ≤ 10) (ht : 1 ≤ t) (hp : |p - t| ≤ roundoff * t) :
    IsNear (c + 11 / 10) (11 / 10 * a) (r / p) (q / t) := by
  have hu := roundoff_pos
  have hq := h.nonneg
  have ht0 : 0 < t := by linarith
  have large : (1 - roundoff) * t ≤ p := by linarith [(abs_le.1 hp).1]
  have tiny : roundoff ≤ 1 / 100 := by norm_num [roundoff]
  have hp0 : 0 < p := lt_of_lt_of_le (mul_pos (by linarith) ht0) large
  have top : |r / p - q / t| * p ≤ (c + 1) * roundoff * q + a * halfStep := by
    calc |r / p - q / t| * p = |(r - q) + q * (t - p) / t| := by
          rw [← abs_of_pos hp0, ← abs_mul, abs_of_pos hp0]
          congr 1
          field_simp
          ring
      _ ≤ |r - q| + q * |p - t| / t := by
          refine (abs_add_le _ _).trans ?_
          rw [abs_div, abs_mul, abs_of_nonneg hq, abs_of_pos ht0, abs_sub_comm t]
      _ ≤ (c * roundoff * q + a * halfStep) + q * (roundoff * t) / t := by
          refine add_le_add h.abs_sub_le ?_
          gcongr
      _ = (c + 1) * roundoff * q + a * halfStep := by
          field_simp
          ring
  have relativeRoom : (c + 1) * roundoff * q ≤ (c + 11 / 10) * roundoff * (q / t) * ((1 - roundoff) * t) := by
    have cancel : (c + 11 / 10) * roundoff * (q / t) * ((1 - roundoff) * t) = (c + 11 / 10) * (1 - roundoff) * (roundoff * q) := by
      field_simp
    rw [cancel, mul_assoc]
    refine mul_le_mul_of_nonneg_right ?_ (mul_nonneg hu.le hq)
    linarith [mul_roundoff_le (hc.trans (by norm_num))]
  have absoluteRoom : a * halfStep ≤ 11 / 10 * a * halfStep * ((1 - roundoff) * t) := by
    have one : 1 ≤ 11 / 10 * ((1 - roundoff) * t) := by
      have := mul_le_mul (by linarith : 99 / 100 ≤ 1 - roundoff) ht (by norm_num) (by linarith)
      linarith
    linarith [mul_le_mul_of_nonneg_left one (mul_nonneg ha0 halfStep_pos.le)]
  have bound : (c + 1) * roundoff * q + a * halfStep ≤ ((c + 11 / 10) * roundoff * (q / t) + 11 / 10 * a * halfStep) * p := by
    have hs := halfStep_pos
    have qt := div_nonneg hq ht0.le
    calc (c + 1) * roundoff * q + a * halfStep
        ≤ ((c + 11 / 10) * roundoff * (q / t) + 11 / 10 * a * halfStep) * ((1 - roundoff) * t) := by linarith
      _ ≤ ((c + 11 / 10) * roundoff * (q / t) + 11 / 10 * a * halfStep) * p := by gcongr
  exact ⟨div_nonneg hq ht0.le, le_of_mul_le_mul_right (top.trans bound) hp0⟩

end IsNear

end GlobeDrag.Binary64
