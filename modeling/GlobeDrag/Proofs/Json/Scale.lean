import GlobeDrag.Json.Number
import GlobeDrag.Proofs.Decimal.Scientific

/-!
# Scaling by a power of ten

What becomes of digits and a power of ten when they are read: each of the two is rounded to a double, and so is their product or quotient.
Near the smallest doubles the last rounding moves by half a spacing instead of in proportion.

Main statements: `scale_gathered` (when a number is too large), `isNear_product` (how close the result is) and `isNearest_product` (digits
and powers that are doubles themselves are rounded once).
-/

namespace GlobeDrag.Json

open Binary64
open Decimal (Literal zpow_natAbs_of_nonneg zpow_natAbs_of_neg)
open Number (gathered gatherLimit scaleLimit scale)

/-! ## Digits and powers -/

variable {n k : ℕ} {p : ℤ}

/-- The digits gathered in a word are rounded once. -/
theorem isNearest_gathered (h : n < gatherLimit) : IsNearest (gathered n) n :=
  isNearest_toFloat h

/-- Digits are rounded once. -/
theorem isNear_gathered (h0 : 0 < n) (h : n < gatherLimit) :
    (gathered n).isFinite = true ∧ IsNear 1 0 (value (gathered n)) n := by
  have top : (n : ℚ) ≤ 2 ^ 64 := by exact_mod_cast h.le
  obtain ⟨finite, near⟩ := (isNearest_gathered h).of_one_le (by exact_mod_cast h0) (top.trans (two_pow_le_greatest (by norm_num)))
  exact ⟨finite, Nat.cast_nonneg n, by linarith⟩

/-- Digits of at most 53 bits are a double. -/
theorem value_gathered (h : n ≤ 2 ^ 53) : (gathered n).isFinite = true ∧ value (gathered n) = n :=
  value_toFloat h

/-- The powers of ten up to the 22nd are doubles. -/
theorem value_power (h : k ≤ 22) : (Literal.scientific 1 k).isFinite = true ∧ value (Literal.scientific 1 k) = 10 ^ k := by
  have all : ∀ j : Fin 23, (Literal.scientific 1 j).isFinite = true ∧ value (Literal.scientific 1 j) = 10 ^ (j : ℕ) := by
    decide +kernel
  exact all ⟨k, Nat.lt_succ_of_le h⟩

/-- Powers of ten are rounded once. -/
theorem isNearest_power (k : ℕ) : IsNearest (Literal.scientific 1 k) (10 ^ k) := by
  simpa using Decimal.isNearest_scientific 1 k

/-- The powers of ten that are used are finite. -/
theorem abs_value_power_sub_le (h : k ≤ scaleLimit) :
    (Literal.scientific 1 k).isFinite = true ∧ |value (Literal.scientific 1 k) - 10 ^ k| ≤ roundoff * 10 ^ k := by
  refine (isNearest_power k).of_one_le (one_le_pow₀ (by norm_num)) ?_
  calc (10 : ℚ) ^ k ≤ 10 ^ 308 := pow_le_pow_right₀ (by norm_num) h
    _ ≤ greatest := by
        rw [greatest]
        decide +kernel

theorem value_power_pos (h : k ≤ scaleLimit) : 0 < value (Literal.scientific 1 k) := by
  obtain ⟨low, -⟩ := abs_le.1 (abs_value_power_sub_le h).2
  have : (0 : ℚ) < 10 ^ k := by positivity
  have : roundoff < 1 := by norm_num [roundoff]
  nlinarith

/-! ## Products -/

/-- The double that digits and a power of ten are scaled to, infinite where they are too large. -/
def product (n : ℕ) (p : ℤ) : Float :=
  if 0 ≤ p then gathered n * Literal.scientific 1 p.natAbs
  else if p.natAbs ≤ scaleLimit then gathered n / Literal.scientific 1 p.natAbs
  else gathered n / Literal.scientific 1 scaleLimit / Literal.scientific 1 (p + scaleLimit).natAbs

theorem product_of_nonneg (n : ℕ) (hp : 0 ≤ p) : product n p = gathered n * Literal.scientific 1 p.natAbs := if_pos hp

theorem product_of_neg (n : ℕ) (hp : p < 0) (hk : p.natAbs ≤ scaleLimit) :
    product n p = gathered n / Literal.scientific 1 p.natAbs := by
  rw [product, if_neg (by omega), if_pos hk]

theorem product_of_lt (n : ℕ) (hp : p < 0) (hk : scaleLimit < p.natAbs) :
    product n p = gathered n / Literal.scientific 1 scaleLimit / Literal.scientific 1 (p + scaleLimit).natAbs := by
  rw [product, if_neg (by omega), if_neg (by omega)]

theorem gathered_ne_zero (h0 : 0 < n) (h : n < gatherLimit) : (gathered n == 0) = false := by
  obtain ⟨finite, near⟩ := isNear_gathered h0 h
  rw [Bool.eq_false_iff, ne_eq, beq_iff_value_eq (isNaN_of_isFinite finite) (by decide)]
  intro hz
  have one : (1 : ℚ) ≤ n := by exact_mod_cast h0
  have low := (abs_le.1 near.abs_sub_le).1
  have small : roundoff < 1 := by norm_num [roundoff]
  have zero : value 0 = 0 := rfl
  rw [hz, zero] at low
  nlinarith

/-- Scaling by a negative power in the table divides once. -/
theorem scale_of_neg (f : Float) (hp : p < 0) (hk : p.natAbs ≤ scaleLimit) :
    scale f p = .ok (f / Literal.scientific 1 p.natAbs) := by
  rw [scale, if_pos hk]
  simp only
  rw [if_neg (by omega)]

/-- Scaling fails only where the product is infinite. -/
theorem scale_gathered (h0 : 0 < n) (h : n < gatherLimit) (h1 : -400 ≤ p) (h2 : p ≤ 308) (hf : (product n p).isFinite = true) :
    scale (gathered n) p = .ok (product n p) := by
  have limit : scaleLimit = 308 := rfl
  rcases lt_or_ge p 0 with hp | hp
  · rcases le_or_gt p.natAbs scaleLimit with hk | hk
    · rw [product_of_neg n hp hk, scale_of_neg _ hp hk]
    · rw [product_of_lt n hp hk, scale, if_neg (by omega), if_neg (by rw [gathered_ne_zero h0 h]; decide), if_neg (by omega)]
      exact scale_of_neg _ (by omega) (by omega)
  · rw [product_of_nonneg n hp] at hf ⊢
    rw [scale, if_pos (by omega)]
    simp only
    rw [if_pos hp, if_neg (by rw [isInf_of_isFinite hf]; decide)]

/-- The product of rounded factors is near the exact one. -/
theorem isNear_times (h0 : 0 < n) (h : n < gatherLimit) (hk : k ≤ scaleLimit) :
    IsNear (21 / 10) 0 (value (gathered n) * value (Literal.scientific 1 k)) (n * 10 ^ k) := by
  have near := (isNear_gathered h0 h).2.mul (by norm_num) (by norm_num) (by positivity) (abs_value_power_sub_le hk).2
  exact near.mono (by norm_num) le_rfl

/-- So is their quotient. -/
theorem isNear_over (h0 : 0 < n) (h : n < gatherLimit) (hk : k ≤ scaleLimit) :
    IsNear (21 / 10) 0 (value (gathered n) / value (Literal.scientific 1 k)) (n / 10 ^ k) := by
  have near := (isNear_gathered h0 h).2.div (by norm_num) le_rfl (by norm_num) (one_le_pow₀ (by norm_num))
    (abs_value_power_sub_le hk).2
  exact near.mono (by norm_num) (by norm_num)

/-- Digits divided by one or two powers of ten. -/
theorem isNear_product_of_neg (h0 : 0 < n) (h : n < gatherLimit) (h1 : -400 ≤ p) (hp : p < 0) :
    (product n p).isFinite = true ∧ IsNear 6 (5 / 2) (value (product n p)) (n * 10 ^ p) := by
  have limit : scaleLimit = 308 := rfl
  have top : (n : ℚ) ≤ 2 ^ 64 := by exact_mod_cast h.le
  have finite := (isNear_gathered h0 h).1
  have quotient {k : ℕ} (hk : k ≤ scaleLimit) := (isNear_over h0 h hk).of_isNearest
    (isNearest_div finite (abs_value_power_sub_le hk).1 (value_power_pos hk).ne')
    ((div_le_self (Nat.cast_nonneg n) (one_le_pow₀ (by norm_num))).trans top) (by norm_num) (by norm_num)
  rw [zpow_natAbs_of_neg hp, ← div_eq_mul_inv]
  rcases le_or_gt p.natAbs scaleLimit with hk | hk
  · rw [product_of_neg n hp hk]
    obtain ⟨finite, near⟩ := quotient hk
    exact ⟨finite, near.mono (by norm_num) (by norm_num)⟩
  · rw [product_of_lt n hp hk]
    obtain ⟨finite, near⟩ := quotient (le_refl scaleLimit)
    have hj : (p + scaleLimit).natAbs ≤ scaleLimit := by omega
    obtain ⟨fp, hp'⟩ := abs_value_power_sub_le hj
    have split : (n : ℚ) / 10 ^ p.natAbs = n / 10 ^ scaleLimit / 10 ^ (p + scaleLimit).natAbs := by
      rw [div_div, ← pow_add]
      congr 2
      omega
    have small : (n : ℚ) / 10 ^ p.natAbs ≤ 2 ^ 64 := (div_le_self (Nat.cast_nonneg n) (one_le_pow₀ (by norm_num))).trans top
    have second := near.div (by norm_num) (by norm_num) (by norm_num) (one_le_pow₀ (by norm_num)) hp'
    rw [← split] at second
    obtain ⟨finite', near'⟩ := second.of_isNearest (isNearest_div finite fp (value_power_pos hj).ne') small (by norm_num) (by norm_num)
    exact ⟨finite', near'.mono (by norm_num) (by norm_num)⟩

/-- Products below the largest doubles are finite. -/
theorem isFinite_product (h0 : 0 < n) (h : n < gatherLimit) (hp : 0 ≤ p) (h2 : p ≤ 308)
    (top : n * 10 ^ p ≤ (2 ^ 53 - 7 / 2 : ℚ) * 2 ^ (971 : ℤ)) : (product n p).isFinite = true := by
  have hk : p.natAbs ≤ scaleLimit := by
    have limit : scaleLimit = 308 := rfl
    omega
  have size := (isNear_times h0 h hk).size_le
  rw [zpow_natAbs_of_nonneg hp] at top
  rw [product_of_nonneg n hp]
  refine isFinite_of_abs_le (isNearest_mul (isNear_gathered h0 h).1 (abs_value_power_sub_le hk).1) (size.trans ?_)
  have h2 := two_zpow_pos 971
  calc (1 + 21 / 10 * roundoff) * (n * 10 ^ p.natAbs) + 0 * halfStep
      ≤ (1 + 21 / 10 * roundoff) * ((2 ^ 53 - 7 / 2) * 2 ^ (971 : ℤ)) := by
        rw [zero_mul, add_zero]
        have := roundoff_pos
        gcongr
    _ = (1 + 21 / 10 * roundoff) * (2 ^ 53 - 7 / 2) * 2 ^ (971 : ℤ) := by rw [mul_assoc]
    _ ≤ greatest := mul_le_mul_of_nonneg_right (by norm_num [roundoff]) h2.le

/-- A finite product is six roundings away from the exact one. -/
theorem isNear_product (h0 : 0 < n) (h : n < gatherLimit) (h1 : -400 ≤ p) (h2 : p ≤ 308) (hf : (product n p).isFinite = true) :
    IsNear 6 (5 / 2) (value (product n p)) (n * 10 ^ p) := by
  rcases lt_or_ge p 0 with hp | hp
  · exact (isNear_product_of_neg h0 h h1 hp).2
  · have hk : p.natAbs ≤ scaleLimit := by
      have limit : scaleLimit = 308 := rfl
      omega
    rw [product_of_nonneg n hp] at hf ⊢
    rw [(isNearest_mul (isNear_gathered h0 h).1 (abs_value_power_sub_le hk).1).value_of_isFinite hf, zpow_natAbs_of_nonneg hp]
    exact ((isNear_times h0 h hk).rounded (by norm_num) (by norm_num)).mono (by norm_num) (by norm_num)

/-- Digits and powers that are doubles are rounded once. -/
theorem isNearest_product (h : n ≤ 2 ^ 53) (hp : p.natAbs ≤ 22) : IsNearest (product n p) (n * 10 ^ p) := by
  have limit : scaleLimit = 308 := rfl
  have hk : p.natAbs ≤ scaleLimit := by omega
  obtain ⟨finite, digits⟩ := value_gathered h
  rcases lt_or_ge p 0 with neg | nonneg
  · rw [product_of_neg n neg hk, zpow_natAbs_of_neg neg, ← div_eq_mul_inv, ← digits, ← (value_power hp).2]
    exact isNearest_div finite (abs_value_power_sub_le hk).1 (value_power_pos hk).ne'
  · rw [product_of_nonneg n nonneg, zpow_natAbs_of_nonneg nonneg, ← digits, ← (value_power hp).2]
    exact isNearest_mul finite (abs_value_power_sub_le hk).1

end GlobeDrag.Json
