import GlobeDrag.Decimal.Literal
import GlobeDrag.Proofs.Binary64.Difference
import GlobeDrag.Proofs.Binary64.Gradual

/-!
# Decimal scaling

The double that digits and a power of ten stand for is the one nearest to their exact product. Few digits and small powers are doubles
themselves, so one operation on doubles rounds them once. All others are multiplied or divided exactly before they are rounded, and powers
that are out of all proportion give infinity or zero at once.

Main statements: `isNearest_scientific` (digits and a power of ten are rounded once) and `scientific_ne_neg_zero` (a number too small for
the doubles becomes zero without a sign).
-/

namespace GlobeDrag.Decimal

open Binary64
open Literal (scientific)
open Float.Model (Format UnpackedFloat)
open Float.Model.UnpackedFloat (roundWithAccuracy)

variable {n : ℕ} {e : ℤ}

/-! ## Digits and powers that are doubles -/

/-- Few digits are multiplied or divided by a power of ten that is a double. -/
theorem scientific_of_few (hn : n < 2 ^ 53) (he : e.natAbs ≤ 22) :
    ∃ power : Float, power.isFinite = true ∧ value power = 10 ^ e.natAbs ∧
      scientific n e = if e < 0 then (UInt64.ofNat n).toFloat / power else (UInt64.ofNat n).toFloat * power := by
  have powers : ∀ k : Fin 23, (Float.exactlyRepresentablePowersOfTen[k]).isFinite = true ∧
      value Float.exactlyRepresentablePowersOfTen[k] = 10 ^ (k : ℕ) := by decide +kernel
  obtain ⟨finite, exact⟩ := powers ⟨e.natAbs, Nat.lt_succ_of_le he⟩
  refine ⟨_, finite, exact, ?_⟩
  rw [scientific, Float.ofScientific, dif_pos ⟨hn, he⟩]
  by_cases neg : e < 0
  · rw [if_pos neg, if_pos (decide_eq_true neg)]
    rfl
  · rw [if_neg neg, if_neg (by simpa using neg)]
    rfl

/-- Many digits, or a large power of ten, are scaled exactly before they are rounded. -/
theorem scientific_of_many (h : ¬(n < 2 ^ 53 ∧ e.natAbs ≤ 22)) :
    scientific n e = .ofModel (.pack (UnpackedFloat.ofScientific .binary64 n e)) := by
  have sign : (if decide (e < 0) = true then Int.negOfNat e.natAbs else Int.ofNat e.natAbs) = e := by
    split
    · next neg =>
      rw [decide_eq_true_iff] at neg
      rw [Int.negOfNat_eq]
      change -(e.natAbs : ℤ) = e
      omega
    · next nonneg =>
      rw [decide_eq_true_iff] at nonneg
      change (e.natAbs : ℤ) = e
      omega
  rw [scientific, Float.ofScientific, dif_neg h]
  simp only [sign]
  rfl

theorem zpow_natAbs_of_nonneg (h : 0 ≤ e) : (10 : ℚ) ^ e = 10 ^ e.natAbs := by
  rw [← zpow_natCast, Int.natAbs_of_nonneg h]

theorem zpow_natAbs_of_neg (h : e < 0) : (10 : ℚ) ^ e = (10 ^ e.natAbs)⁻¹ := by
  rw [← zpow_natCast, ← zpow_neg]
  congr 1
  omega

/-- Few digits and a small exponent are computed in one rounding. -/
theorem isNearest_scientific_of_few (hn : n < 2 ^ 53) (he : e.natAbs ≤ 22) : IsNearest (scientific n e) (n * 10 ^ e) := by
  obtain ⟨power, finite, exact, eq⟩ := scientific_of_few hn he
  obtain ⟨fn, vn⟩ := value_toFloat hn.le
  rw [eq]
  split
  · next neg =>
    rw [zpow_natAbs_of_neg neg, ← div_eq_mul_inv, ← vn, ← exact]
    refine isNearest_div fn finite ?_
    rw [exact]
    positivity
  · next nonneg =>
    rw [zpow_natAbs_of_nonneg (not_lt.1 nonneg), ← vn, ← exact]
    exact isNearest_mul fn finite

/-! ## Exact scaling -/

/-- Powers of ten above this are beyond the doubles. -/
theorem limit_le_ten_zpow (h : 2 ^ 11 < e) : limit ≤ 10 ^ e := by
  calc limit ≤ 2 ^ e := zpow_le_zpow_right₀ (by norm_num) (by omega)
    _ ≤ 10 ^ e := zpow_le_zpow_left₀ (by omega) (by norm_num) (by norm_num)

/-- Digits with a power of ten below this are below half the smallest spacing. -/
theorem mul_ten_zpow_lt_halfStep (h : e < -(2 ^ 11 + (n.log2 : ℤ))) : (n : ℚ) * 10 ^ e < halfStep := by
  have digits : (n : ℚ) ≤ 2 ^ (n.log2 + 1 : ℤ) := by exact_mod_cast (Nat.lt_log2_self (n := n)).le
  have power : (10 : ℚ) ^ e ≤ 2 ^ e := by
    rw [← neg_neg e, zpow_neg, zpow_neg (2 : ℚ)]
    exact inv_anti₀ (two_zpow_pos _) (zpow_le_zpow_left₀ (by omega) (by norm_num) (by norm_num))
  calc (n : ℚ) * 10 ^ e ≤ 2 ^ (n.log2 + 1 : ℤ) * 2 ^ e := by gcongr
    _ = 2 ^ (n.log2 + 1 + e : ℤ) := (zpow_add₀ (by norm_num) _ _).symm
    _ < halfStep := zpow_lt_zpow_right₀ (by norm_num) (by omega)

/-- A power of ten that is not negative is multiplied with the digits. -/
theorem isRounding_ofScientific_of_nonneg (hn : n ≠ 0) (h : e ≤ 2 ^ 11) (he : 0 ≤ e) :
    IsRounding (UnpackedFloat.ofScientific .binary64 n e) (n * 10 ^ e) := by
  have one : (1 : ℚ) ≤ n * 10 ^ e := by
    have : (1 : ℚ) ≤ n := by exact_mod_cast Nat.pos_of_ne_zero hn
    exact one_le_mul_of_one_le_of_one_le this (one_le_zpow₀ (by norm_num) he)
  have exact : Within ((n * 10 ^ e : ℚ) / 2 ^ (-53 + 0 : ℤ)) (n <<< 53 * 10 ^ e.toNat) .exact := by
    change (n * 10 ^ e : ℚ) / 2 ^ (-53 + 0 : ℤ) = ((n <<< 53 * 10 ^ e.toNat : ℕ) : ℚ)
    rw [Nat.shiftLeft_eq, add_zero, zpow_neg, div_inv_eq_mul]
    push_cast
    rw [← zpow_natCast (10 : ℚ), Int.toNat_of_nonneg he, mul_right_comm]
  have bits : -53 + 0 ≤ grain (n * 10 ^ e : ℚ) := by
    refine le_grain_of_le ?_
    rw [abs_of_nonneg (zero_le_one.trans one)]
    exact le_trans (zpow_le_one_of_nonpos₀ (by norm_num) (by norm_num)) one
  have least : ¬e < -(2 ^ 11 + (n.log2 : ℤ)) := by omega
  rw [UnpackedFloat.ofScientific, dif_neg hn, if_neg (by exact not_lt.2 h), if_neg (by exact least), if_pos he]
  exact isRounding_roundWithAccuracy (zero_lt_one.trans_le one) exact bits .positive

/-- The digits are divided by the opposite of a negative power of ten. -/
theorem isRounding_ofScientific_of_neg (hn : n ≠ 0) (h : -(2 ^ 11 + (n.log2 : ℤ)) ≤ e) (he : e < 0) :
    IsRounding (UnpackedFloat.ofScientific .binary64 n e) (n * 10 ^ e) := by
  have power : (10 : ℚ) ^ e = (10 ^ (-e).toNat)⁻¹ := by
    rw [← zpow_natCast, Int.toNat_of_nonneg (by omega), zpow_neg, inv_inv]
  have pos : (0 : ℚ) < (10 ^ (-e).toNat : ℕ) * 2 ^ (0 : ℤ) := by positivity
  have quotient := isRounding_div (u := .finite .positive n 0 (Nat.pos_of_ne_zero hn))
    (v := .finite .positive (10 ^ (-e).toNat) 0 (Nat.pow_pos (by decide))) rfl rfl pos.ne'
  have large : ¬2 ^ 11 < e := by omega
  rw [UnpackedFloat.ofScientific, dif_neg hn, if_neg (by exact large), if_neg (by exact not_lt.2 h), if_neg (by omega), power]
  simpa only [rational, signed_positive, zpow_zero, mul_one, Nat.cast_pow, Nat.cast_ofNat, div_eq_mul_inv] using quotient

/-- Exact scaling is rounded once, and powers out of all proportion become infinity only where the number is too large. -/
theorem isRounding_ofScientific (n : ℕ) (e : ℤ) :
    IsRounding (UnpackedFloat.ofScientific .binary64 n e) (n * 10 ^ e) ∨
      UnpackedFloat.ofScientific .binary64 n e = .infinity .positive ∧ limit ≤ n * 10 ^ e := by
  by_cases hn : n = 0
  · have zero : UnpackedFloat.ofScientific .binary64 n e = .zero .positive := dif_pos hn
    rw [zero, hn, Nat.cast_zero, zero_mul]
    exact Or.inl (isRounding_zero .positive)
  have digits : (1 : ℚ) ≤ n := by exact_mod_cast Nat.pos_of_ne_zero hn
  have power : (0 : ℚ) < 10 ^ e := zpow_pos (by norm_num) e
  rcases lt_or_ge (2 ^ 11) e with large | small
  · right
    constructor
    · rw [UnpackedFloat.ofScientific, dif_neg hn, if_pos (by exact large)]
    · exact (limit_le_ten_zpow large).trans (le_mul_of_one_le_left power.le digits)
  left
  rcases lt_or_ge e (-(2 ^ 11 + (n.log2 : ℤ))) with tiny | moderate
  · have zero : UnpackedFloat.ofScientific .binary64 n e = .zero .positive := by
      rw [UnpackedFloat.ofScientific, dif_neg hn, if_neg (by exact not_lt.2 small), if_pos (by exact tiny)]
    rw [zero]
    exact ⟨rfl, trivial, (nearest_of_lt_halfStep (by positivity) (mul_ten_zpow_lt_halfStep tiny)).symm⟩
  · rcases lt_or_ge e 0 with neg | nonneg
    · exact isRounding_ofScientific_of_neg hn moderate neg
    · exact isRounding_ofScientific_of_nonneg hn small nonneg

/-- Digits and a power of ten are rounded once. -/
theorem isNearest_scientific (n : ℕ) (e : ℤ) : IsNearest (scientific n e) (n * 10 ^ e) := by
  by_cases few : n < 2 ^ 53 ∧ e.natAbs ≤ 22
  · exact isNearest_scientific_of_few few.1 few.2
  rw [scientific_of_many few]
  rcases isRounding_ofScientific n e with rounded | ⟨infinite, above⟩
  · exact rounded.isNearest
  · obtain ⟨number, hv⟩ := value_of_infinity rfl infinite
    exact ⟨number, by rw [hv, signed_positive, clamp_of_le (le_nearest onGrid_limit above)]⟩

/-! ## The sign of what is rounded to zero -/

/-- What the model packs is negative zero only if it was negative zero before. -/
theorem pack_ne_neg_zero {u : UnpackedFloat} (hu : IsCanonical u) (h : u ≠ .zero .negative) : Float.ofModel (.pack u) ≠ -0 := by
  intro eq
  have unpacked : bounded u = (-0 : Float).toModel.unpack := by
    rw [← unpack_pack hu, ← eq]
    rfl
  have zero : (-0 : Float).toModel.unpack = .zero .negative := rfl
  rw [zero] at unpacked
  cases u with
  | zero s => exact h unpacked
  | infinity s => cases unpacked
  | notANumber => cases unpacked
  | finite s m e hm =>
    rw [bounded] at unpacked
    split at unpacked <;> cases unpacked

/-- Rounding a positive number does not lead to the negative zero. -/
theorem roundWithAccuracy_ne_neg_zero (m : ℕ) (e : ℤ) (a : UnpackedFloat.Accuracy) :
    roundWithAccuracy .binary64 .positive m e a ≠ .zero .negative := by
  unfold roundWithAccuracy
  simp only
  split <;> simp

/-- Nor does a decimal number without a sign. -/
theorem ofScientific_ne_neg_zero (n : ℕ) (e : ℤ) : UnpackedFloat.ofScientific .binary64 n e ≠ .zero .negative := by
  unfold UnpackedFloat.ofScientific
  split_ifs
  · simp
  · simp
  · simp
  · exact roundWithAccuracy_ne_neg_zero _ _ _
  · exact roundWithAccuracy_ne_neg_zero _ _ _

/-- Digits and a power of ten do not become negative zero. -/
theorem scientific_ne_neg_zero (n : ℕ) (e : ℤ) : scientific n e ≠ -0 := by
  by_cases few : n < 2 ^ 53 ∧ e.natAbs ≤ 22
  · by_cases hn : n = 0
    · have zeros : ∀ k : Fin 23, (scientific 0 k).toBits = 0 ∧ (scientific 0 (-(k : ℤ))).toBits = 0 := by decide +kernel
      have zero : (scientific n e).toBits = 0 := by
        obtain ⟨positive, negative⟩ := zeros ⟨e.natAbs, Nat.lt_succ_of_le few.2⟩
        rcases Int.natAbs_eq e with he | he
        · rwa [hn, he]
        · rwa [hn, he]
      intro eq
      rw [eq] at zero
      exact absurd zero (by decide)
    · have digits : (1 : ℚ) ≤ n := by exact_mod_cast Nat.pos_of_ne_zero hn
      have large : (2 : ℚ) ^ (-1074 : ℤ) ≤ n * 10 ^ e := by
        calc (2 : ℚ) ^ (-1074 : ℤ) ≤ 2 ^ (-74 : ℤ) := zpow_le_zpow_right₀ (by norm_num) (by norm_num)
          _ ≤ 10 ^ (-22 : ℤ) := by norm_num
          _ ≤ 10 ^ e := zpow_le_zpow_right₀ (by norm_num) (by omega)
          _ ≤ n * 10 ^ e := le_mul_of_one_le_left (zpow_pos (by norm_num) e).le digits
      have pos := (isNearest_scientific n e).value_pos large
      intro eq
      rw [eq, value_neg, value_zero, neg_zero] at pos
      exact lt_irrefl _ pos
  · rw [scientific_of_many few]
    refine pack_ne_neg_zero ?_ (ofScientific_ne_neg_zero n e)
    rcases isRounding_ofScientific n e with rounded | ⟨infinite, -⟩
    · exact rounded.canonical
    · rw [infinite]
      trivial

end GlobeDrag.Decimal
