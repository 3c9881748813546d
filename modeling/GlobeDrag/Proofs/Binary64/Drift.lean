import GlobeDrag.Proofs.Binary64.Whole

/-!
# Accumulated rounding

A number far from the ends of the range of the doubles moves by less than its 53rd bit when it is rounded. So what several multiplications
and divisions in a row come to is within a factor of the exact number, and each of them adds its own factor.

Where the size of the numbers is known, half the spacing of the doubles there is the better bound, and each of them adds its own half.

Main statements: `abs_nearest_sub_le` and `IsNearest.abs_sub_le_ulp` (one rounding), `IsClose.mul` and `IsClose.div` (one more of
them, by a factor), `IsWithin.mul` and `IsWithin.div` (one more, by a distance), `IsWithin.wholeAway_eq` (a number close enough to a whole
one is rounded to it), `eq_of_value_eq` (a double other than zero is known from its value) and `IsNearest.eq` (a nearest double that is
not negative zero is known from the number).
-/

namespace GlobeDrag.Binary64

/-! ## One rounding -/

/-- How far rounding can move a number, in proportion to it. -/
def roundoff : ℚ := 1 / 2 ^ 53

theorem roundoff_pos : 0 < roundoff := by
  rw [roundoff]
  norm_num

/-- Rounding moves by at most half the spacing. -/
theorem abs_nearest_sub_le_grain (q : ℚ) : |nearest q - q| ≤ 2 ^ grain q / 2 := by
  have hp := two_zpow_pos (grain q)
  have split : nearest q - q = (nearestWhole (q / 2 ^ grain q) - q / 2 ^ grain q) * 2 ^ grain q := by
    rw [nearest, sub_mul, div_mul_cancel₀ _ hp.ne']
  calc |nearest q - q| = |nearestWhole (q / 2 ^ grain q) - q / 2 ^ grain q| * 2 ^ grain q := by
        rw [split, abs_mul, abs_of_pos hp]
    _ ≤ 1 / 2 * 2 ^ grain q := by
        gcongr
        exact abs_nearestWhole_sub_le _
    _ = 2 ^ grain q / 2 := by ring

/-- Below a power of two, rounding moves by at most half the spacing there. -/
theorem abs_nearest_sub_le_of_lt {q : ℚ} {e : ℤ} (h : |q| < 2 ^ (e + 53)) (he : -1074 ≤ e) : |nearest q - q| ≤ 2 ^ e / 2 := by
  rcases eq_or_ne q 0 with rfl | h0
  · rw [nearest_zero, sub_zero, abs_zero]
    exact (half_pos (two_zpow_pos e)).le
  · refine (abs_nearest_sub_le_grain q).trans ?_
    exact div_le_div_of_nonneg_right (zpow_le_zpow_right₀ (by norm_num) (grain_le_of_lt h0 h he)) (by norm_num)

/-- Above the smallest spacing, rounding moves in proportion. -/
theorem abs_nearest_sub_le {q : ℚ} (h : 2 ^ (-1022 : ℤ) ≤ |q|) : |nearest q - q| ≤ roundoff * |q| := by
  have h0 : 0 < |q| := (two_zpow_pos _).trans_le h
  have log : -1022 ≤ Int.log 2 |q| := (Int.zpow_le_iff_le_log (b := 2) (by decide) h0).1 (by exact_mod_cast h)
  have spacing : (2 : ℚ) ^ grain q ≤ |q| / 2 ^ 52 := by
    have hl := Int.zpow_log_le_self (b := 2) (by decide) h0
    rw [grain, max_eq_left (by omega), zpow_sub₀ (by norm_num)]
    exact div_le_div_of_nonneg_right (by exact_mod_cast hl) (by norm_num)
  calc |nearest q - q| ≤ 2 ^ grain q / 2 := abs_nearest_sub_le_grain q
    _ ≤ |q| / 2 ^ 52 / 2 := by gcongr
    _ = roundoff * |q| := by
        rw [roundoff]
        ring

/-! ## The last place -/

theorem grain_abs (q : ℚ) : grain |q| = grain q := by
  rw [grain, grain, abs_abs]

/-- The last place of a double: the spacing of the doubles from its size on. -/
def ulp (x : Float) : ℚ :=
  if value x = 0 then 2 ^ (-1074 : ℤ) else 2 ^ grain (value x)

theorem ulp_pos (x : Float) : 0 < ulp x := by
  rw [ulp]
  split <;> exact two_zpow_pos _

/-- Rounding leads to a last place that is no finer than the spacing about the number. -/
theorem two_zpow_grain_le_ulp {z : Float} {q : ℚ} (hz : value z = nearest q) (h0 : q ≠ 0) : 2 ^ grain q ≤ ulp z := by
  have hpos := abs_pos.2 h0
  have size : |value z| = nearest |q| := by rw [hz, nearest_abs]
  rw [ulp]
  split
  · next zero =>
    have least : grain q = -1074 := by
      by_contra hg
      rw [← grain_abs] at hg
      have whole := le_nearestWhole_grain hpos hg
      have : nearestWhole (|q| / 2 ^ grain |q|) = 0 := by
        have hq : nearest |q| = 0 := by rw [← size, zero, abs_zero]
        rw [nearest, mul_eq_zero, or_iff_left (two_zpow_pos _).ne'] at hq
        exact_mod_cast hq
      omega
    rw [least]
  · have coarser := grain_le_grain_nearest hpos
    rw [← size, grain_abs, grain_abs] at coarser
    exact zpow_le_zpow_right₀ (by norm_num) coarser

/-- A finite double is at most half of its last place away from the number that it was rounded from. -/
theorem IsNearest.abs_sub_le_ulp {z : Float} {q : ℚ} (h : IsNearest z q) (hz : z.isFinite = true) : |value z - q| ≤ ulp z / 2 := by
  have hv := h.value_of_isFinite hz
  by_cases h0 : q = 0
  · rw [hv, h0, nearest_zero, sub_zero, abs_zero, ulp]
    split <;> exact (half_pos (two_zpow_pos _)).le
  · rw [hv]
    exact (abs_nearest_sub_le_grain q).trans (div_le_div_of_nonneg_right (two_zpow_grain_le_ulp hv h0) (by norm_num))

/-! ## Roundings below a bound -/

/-- A finite double no further than `d` from `q`. -/
structure IsWithin (d : ℚ) (z : Float) (q : ℚ) : Prop where
  isFinite : z.isFinite = true
  abs_sub_le : |value z - q| ≤ d

section

variable {x y z : Float} {q r d : ℚ} {e : ℤ}

/-- Rounding a number no further than `d` from `q` adds half the spacing of the doubles there. -/
theorem IsNearest.isWithin (h : IsNearest z r) (hr : |r - q| ≤ d) (size : |q| + d < 2 ^ (e + 53)) (he : |e| ≤ 100) :
    IsWithin (d + 2 ^ e / 2) z q := by
  obtain ⟨low, high⟩ := abs_le.1 he
  have step := two_zpow_pos e
  have small : |r| < 2 ^ (e + 53) := by
    have : |r| ≤ |r - q| + |q| := by simpa using abs_add_le (r - q) q
    linarith
  have near := abs_nearest_sub_le_of_lt small (by omega)
  have below : |nearest r| < limit := by
    calc |nearest r| ≤ |nearest r - r| + |r| := by simpa using abs_add_le (nearest r - r) r
      _ < 2 ^ e + 2 ^ (e + 53) := by linarith
      _ ≤ 2 ^ (e + 53) + 2 ^ (e + 53) := by
          gcongr
          · norm_num
          · omega
      _ = 2 ^ (e + 53 + 1) := by
          rw [zpow_add_one₀ (by norm_num)]
          ring
      _ ≤ limit := zpow_le_zpow_right₀ (by norm_num) (by omega)
  obtain ⟨hz, hv⟩ := h.of_abs_lt below
  refine ⟨hz, ?_⟩
  calc |value z - q| = |(nearest r - r) + (r - q)| := by rw [hv, sub_add_sub_cancel]
    _ ≤ |nearest r - r| + |r - q| := abs_add_le _ _
    _ ≤ d + 2 ^ e / 2 := by linarith

namespace IsWithin

/-- What is no further than `d` away is no further than more than that. -/
theorem mono {b : ℚ} (h : IsWithin d z q) (hd : d ≤ b) : IsWithin b z q :=
  ⟨h.isFinite, h.abs_sub_le.trans hd⟩

/-- Multiplying by a double scales the distance and adds a rounding. -/
theorem mul (h : IsWithin d x q) (hy : y.isFinite = true) (size : (|q| + d) * |value y| < 2 ^ (e + 53)) (he : |e| ≤ 100) :
    IsWithin (d * |value y| + 2 ^ e / 2) (x * y) (q * value y) := by
  refine (isNearest_mul h.isFinite hy).isWithin ?_ ?_ he
  · rw [← sub_mul, abs_mul]
    exact mul_le_mul_of_nonneg_right h.abs_sub_le (abs_nonneg _)
  · rwa [abs_mul, ← add_mul]

/-- Dividing by a double scales the distance and adds a rounding. -/
theorem div (h : IsWithin d x q) (hy : y.isFinite = true) (h0 : value y ≠ 0) (size : (|q| + d) / |value y| < 2 ^ (e + 53))
    (he : |e| ≤ 100) : IsWithin (d / |value y| + 2 ^ e / 2) (x / y) (q / value y) := by
  refine (isNearest_div h.isFinite hy h0).isWithin ?_ ?_ he
  · rw [← sub_div, abs_div]
    exact div_le_div_of_nonneg_right h.abs_sub_le (abs_nonneg _)
  · rwa [abs_div, ← add_div]

/-- A double less than a half away from a whole number is rounded to it. -/
theorem wholeAway_eq {n : ℤ} (h : IsWithin d x n) (hd : d < 1 / 2) : wholeAway (value x) = n := by
  obtain ⟨low, high⟩ := abs_lt.1 (h.abs_sub_le.trans_lt hd)
  rw [wholeAway]
  split
  · exact Int.floor_eq_iff.2 ⟨by linarith, by linarith⟩
  · rw [neg_eq_iff_eq_neg]
    exact Int.floor_eq_iff.2 ⟨by push_cast; linarith, by push_cast; linarith⟩

end IsWithin

end

/-! ## Roundings in a row -/

/-- A number that is zero or far from both ends of the range of the doubles. -/
def InScale (q : ℚ) : Prop := q = 0 ∨ 1 / 10 ^ 40 ≤ |q| ∧ |q| ≤ 10 ^ 40

/-- A finite double within a factor of `q`. -/
structure IsClose (factor : ℚ) (z : Float) (q : ℚ) : Prop where
  isFinite : z.isFinite = true
  abs_sub_le : |value z - q| ≤ (factor - 1) * |q|

variable {x y z : Float} {q r f : ℚ}

/-- Rounding a number within a factor of `q` leaves a double within that factor and one of rounding. -/
theorem IsNearest.isClose (h : IsNearest z r) (hq : InScale q) (h2 : f ≤ 3 / 2) (hr : |r - q| ≤ (f - 1) * |q|) :
    IsClose (f * (1 + roundoff)) z q := by
  rcases hq with rfl | ⟨low, high⟩
  · have r0 : r = 0 := by simpa using hr
    rw [r0] at h
    obtain ⟨hz, hv⟩ := h.of_abs_lt (by rw [nearest_zero, abs_zero]; exact limit_pos)
    exact ⟨hz, by rw [hv, nearest_zero, sub_zero, abs_zero, mul_zero]⟩
  · have hq0 := abs_nonneg q
    have hu := roundoff_pos
    have size : |r| ≤ f * |q| := by
      calc |r| = |r - q + q| := by rw [sub_add_cancel]
        _ ≤ |r - q| + |q| := abs_add_le _ _
        _ ≤ (f - 1) * |q| + |q| := by gcongr
        _ = f * |q| := by ring
    have large : |q| / 2 ≤ |r| := by
      have : |q| ≤ |r - q| + |r| := by
        calc |q| = |r - (r - q)| := by rw [sub_sub_cancel]
          _ ≤ |r| + |r - q| := abs_sub _ _
          _ = |r - q| + |r| := add_comm _ _
      nlinarith
    have small : (2 : ℚ) ^ (-1022 : ℤ) ≤ 1 / 10 ^ 40 / 2 := by
      calc (2 : ℚ) ^ (-1022 : ℤ) ≤ 2 ^ (-140 : ℤ) := zpow_le_zpow_right₀ (by norm_num) (by norm_num)
        _ ≤ 1 / 10 ^ 40 / 2 := by norm_num
    have near : |nearest r - r| ≤ roundoff * |r| := abs_nearest_sub_le (by linarith)
    have move : |nearest r - q| ≤ (f * (1 + roundoff) - 1) * |q| := by
      calc |nearest r - q| = |nearest r - r + (r - q)| := by rw [sub_add_sub_cancel]
        _ ≤ |nearest r - r| + |r - q| := abs_add_le _ _
        _ ≤ roundoff * (f * |q|) + (f - 1) * |q| := by
            refine add_le_add (near.trans ?_) hr
            gcongr
        _ = (f * (1 + roundoff) - 1) * |q| := by ring
    have below : |nearest r| < limit := by
      calc |nearest r| = |nearest r - q + q| := by rw [sub_add_cancel]
        _ ≤ |nearest r - q| + |q| := abs_add_le _ _
        _ ≤ (f * (1 + roundoff) - 1) * |q| + |q| := by gcongr
        _ = f * (1 + roundoff) * |q| := by ring
        _ ≤ 3 / 2 * (1 + roundoff) * 10 ^ 40 := by gcongr
        _ < 2 ^ (140 : ℤ) := by
            rw [roundoff]
            norm_num
        _ ≤ limit := zpow_le_zpow_right₀ (by norm_num) (by norm_num)
    obtain ⟨hz, hv⟩ := h.of_abs_lt below
    exact ⟨hz, by rwa [hv]⟩

namespace IsClose

/-- The double nearest to a number is one rounding away from it. -/
theorem of_isNearest (h : IsNearest z q) (hq : InScale q) : IsClose (1 + roundoff) z q := by
  have := h.isClose (f := 1) hq (by norm_num) (by rw [sub_self, sub_self, zero_mul, abs_zero])
  rwa [one_mul] at this

/-- Multiplying by a double adds a rounding. -/
theorem mul (h : IsClose f x q) (hy : y.isFinite = true) (h2 : f ≤ 3 / 2) (hq : InScale (q * value y)) :
    IsClose (f * (1 + roundoff)) (x * y) (q * value y) := by
  refine (isNearest_mul h.isFinite hy).isClose hq h2 ?_
  rw [← sub_mul, abs_mul, abs_mul, ← mul_assoc]
  exact mul_le_mul_of_nonneg_right h.abs_sub_le (abs_nonneg _)

/-- Dividing by a double adds a rounding. -/
theorem div (h : IsClose f x q) (hy : y.isFinite = true) (h0 : value y ≠ 0) (h2 : f ≤ 3 / 2) (hq : InScale (q / value y)) :
    IsClose (f * (1 + roundoff)) (x / y) (q / value y) := by
  refine (isNearest_div h.isFinite hy h0).isClose hq h2 ?_
  rw [← sub_div, abs_div, abs_div, ← mul_div_assoc]
  exact div_le_div_of_nonneg_right h.abs_sub_le (abs_nonneg _)

/-- A double close enough to a whole number is rounded to it. -/
theorem wholeAway_eq {n : ℤ} (h : IsClose f x n) (hn : (f - 1) * |(n : ℚ)| < 1 / 2) : wholeAway (value x) = n :=
  IsWithin.wholeAway_eq ⟨h.isFinite, h.abs_sub_le⟩ hn

end IsClose

/-! ## Doubles and their values -/

/-- Two words have the same sign if the sign bit is the same. -/
theorem signOf_eq_iff {v w : ℕ} : signOf v = signOf w ↔ (v < signWord ↔ w < signWord) := by
  unfold signOf
  split_ifs with hv hw hw <;> simp [hv, hw]

/-- A double other than zero is known from its value. -/
theorem eq_of_value_eq (hx : x.isNaN = false) (hy : y.isNaN = false) (h : value x = value y) (h0 : value x ≠ 0) : x = y := by
  obtain ⟨-, vx⟩ := value_eq_size hx
  obtain ⟨-, vy⟩ := value_eq_size hy
  have nonneg (w : ℕ) : 0 ≤ size w := size_zero.symm.trans_le (size_strictMono.monotone w.zero_le)
  have sx := nonneg (x.toBits.toNat % signWord)
  have sy := nonneg (y.toBits.toNat % signWord)
  have low : x.toBits.toNat % signWord = y.toBits.toNat % signWord := by
    refine size_strictMono.injective ?_
    rw [← abs_of_nonneg sx, ← abs_signed (signOf x.toBits.toNat), ← vx, h, vy, abs_signed, abs_of_nonneg sy]
  have sign : signOf x.toBits.toNat = signOf y.toBits.toNat := by
    rw [vx] at h0
    rw [vx, vy, ← low] at h
    generalize size (x.toBits.toNat % signWord) = q at h h0 sx
    cases hs : signOf x.toBits.toNat <;> cases ht : signOf y.toBits.toNat <;> rw [hs] at h h0 <;> rw [ht] at h <;>
      simp only [signed_positive, signed_negative] at h h0 <;> first | rfl | exact absurd (by linarith) h0
  have bx := x.toBits.toNat_lt
  have bz := y.toBits.toNat_lt
  refine Float.toBits_inj.1 (UInt64.toNat_inj.1 ?_)
  rw [signOf_eq_iff] at sign
  rw [signWord] at sign low
  omega

/-- A double of value zero is one of the two zeros. -/
theorem eq_zero_of_value_eq_zero (hx : x.isFinite = true) (h : value x = 0) : x = 0 ∨ x = -0 := by
  obtain ⟨-, vx⟩ := value_eq_size (isNaN_of_isFinite hx)
  have low : x.toBits.toNat % signWord = 0 := by
    refine size_strictMono.injective ?_
    rw [size_zero, ← abs_eq_zero, ← abs_signed (signOf x.toBits.toNat), ← vx, h, abs_zero]
  have bx := x.toBits.toNat_lt
  rw [signWord] at low
  obtain h | h : x.toBits.toNat = 0 ∨ x.toBits.toNat = 0x8000000000000000 := by omega
  · exact Or.inl (Float.toBits_inj.1 (UInt64.toNat_inj.1 (h.trans (by decide +kernel))))
  · exact Or.inr (Float.toBits_inj.1 (UInt64.toNat_inj.1 (h.trans (by decide +kernel))))

/-- Two doubles that are nearest to the same number are the same, but for the two zeros. -/
theorem IsNearest.eq {q : ℚ} (hx : IsNearest x q) (hy : IsNearest y q) (h : x ≠ -0) (h' : y ≠ -0) : x = y := by
  have same : value x = value y := hx.value_eq.trans hy.value_eq.symm
  by_cases zero : value x = 0
  · have finite {z : Float} (hz : z.isNaN = false) (vz : value z = 0) : z.isFinite = true :=
      isFinite_iff.2 ⟨hz, by rw [vz, abs_zero]; exact limit_pos⟩
    rw [(eq_zero_of_value_eq_zero (finite hx.isNaN_eq zero) zero).resolve_right h,
      (eq_zero_of_value_eq_zero (finite hy.isNaN_eq (same ▸ zero)) (same ▸ zero)).resolve_right h']
  · exact eq_of_value_eq hx.isNaN_eq hy.isNaN_eq same zero

end GlobeDrag.Binary64
