import GlobeDrag.Proofs.Angle
import GlobeDrag.Proofs.Binary64.Drift
import GlobeDrag.Proofs.Binary64.Opposite

/-!
# Decimal places

Rounding to decimal places takes three roundings: of the scaled value, to a whole number, and of the quotient. Each of them keeps the order
and works on the sign apart. Of a value that is not too large for its places the result is the double nearest to a decimal number, and a
double nearest to a decimal number is not moved by scaling and rounding it.

Main statements: `isNearest_roundTo` (the result is nearest to a decimal number), `roundTo_of_isNearest` (what is nearest to one stays) and
`roundTo_keeps_order_and_sign`.
-/

namespace GlobeDrag.Angle

open Binary64

variable {x : Float} {q : ℚ} {places j : ℕ} {k : ℤ}

/-! ## Decimal numbers -/

/-- A number that conversions leave far from the ends of the range of the doubles. -/
def IsModerate (q : ℚ) : Prop := q = 0 ∨ 1 / 10 ^ 20 ≤ |q| ∧ |q| ≤ 10 ^ 20

/-- A moderate number times another one is in scale. -/
theorem IsModerate.inScale_mul (h : IsModerate q) {c : ℚ} (low : 1 / 10 ^ 20 ≤ c) (high : c ≤ 10 ^ 20) : InScale (q * c) := by
  have hc : 0 < c := lt_of_lt_of_le (by norm_num) low
  rcases h with rfl | ⟨hl, hh⟩
  · exact Or.inl (zero_mul c)
  · rw [InScale, abs_mul, abs_of_pos hc]
    refine Or.inr ⟨?_, ?_⟩
    · calc (1 : ℚ) / 10 ^ 40 = 1 / 10 ^ 20 * (1 / 10 ^ 20) := by norm_num
        _ ≤ |q| * c := by gcongr
    · calc |q| * c ≤ 10 ^ 20 * 10 ^ 20 := by gcongr
        _ = 10 ^ 40 := by norm_num

theorem one_le_ten_pow (places : ℕ) : (1 : ℚ) ≤ 10 ^ places :=
  one_le_pow₀ (by norm_num)

theorem ten_pow_le (hp : places ≤ 15) : (10 : ℚ) ^ places ≤ 10 ^ 15 :=
  pow_le_pow_right₀ (by norm_num) hp

theorem isModerate_decimal (hp : places ≤ 15) (hk : |k| ≤ 2 ^ 60) : IsModerate (k / 10 ^ places) := by
  rcases eq_or_ne k 0 with rfl | h0
  · exact Or.inl (by rw [Int.cast_zero, zero_div])
  · have hT := one_le_ten_pow places
    have least : (1 : ℚ) ≤ |(k : ℚ)| := by exact_mod_cast Int.one_le_abs h0
    have most : |(k : ℚ)| ≤ 2 ^ 60 := by exact_mod_cast hk
    rw [IsModerate, abs_div, abs_of_pos (zero_lt_one.trans_le hT)]
    refine Or.inr ⟨?_, ?_⟩
    · calc (1 : ℚ) / 10 ^ 20 ≤ 1 / 10 ^ 15 := by norm_num
        _ ≤ |(k : ℚ)| / 10 ^ places := div_le_div₀ (abs_nonneg _) least (zero_lt_one.trans_le hT) (ten_pow_le hp)
    · calc |(k : ℚ)| / 10 ^ places ≤ 2 ^ 60 := (div_le_self (abs_nonneg _) hT).trans most
        _ ≤ 10 ^ 20 := by norm_num

/-- A double nearest to a decimal number is within one rounding of it. -/
theorem isClose_decimal (hp : places ≤ 15) (hk : |k| ≤ 2 ^ 60) (h : IsNearest x (k / 10 ^ places)) :
    IsClose (1 + roundoff) x (k / 10 ^ places) :=
  .of_isNearest h (by
    rw [← mul_one (_ / _)]
    exact (isModerate_decimal hp hk).inScale_mul (by norm_num) (by norm_num))

/-! ## Rounding to decimal places -/

/-- What is rounded to decimal places is the double nearest to a decimal number. -/
theorem isNearest_roundTo (hp : places ≤ 15) (hx : x.isFinite = true) (hx' : (x * powerOfTen places).isFinite = true) :
    IsNearest (roundTo x places) (wholeAway (value (x * powerOfTen places)) / 10 ^ places) := by
  obtain ⟨finite, ten⟩ := value_powerOfTen hp
  obtain ⟨whole, hv⟩ := value_round hx'
  have h := isNearest_div whole finite (by
    rw [ten]
    positivity)
  rwa [hv, ten, ← roundTo_of_isFinite places hx] at h

/-- Scaling a value of so many units of its last place leads to no more of them. -/
theorem scaled_of_le (hp : places ≤ 15) (hj : j ≤ 1000) (hx : x.isFinite = true) (h : |value x| * 10 ^ places ≤ 2 ^ j) :
    (x * powerOfTen places).isFinite = true ∧ value (x * powerOfTen places) = nearest (value x * 10 ^ places) ∧
      |value (x * powerOfTen places)| ≤ 2 ^ j := by
  obtain ⟨finite, ten⟩ := value_powerOfTen hp
  have onGrid : OnGrid (2 ^ j) := ⟨1, j, by norm_num, by omega, by rw [Int.cast_one, one_mul, zpow_natCast]⟩
  have product := isNearest_mul hx finite
  rw [ten] at product
  rw [← abs_of_pos (zero_lt_one.trans_le (one_le_ten_pow places)), ← abs_mul] at h
  obtain ⟨low, high⟩ := abs_le.1 h
  have most : |nearest (value x * 10 ^ places)| ≤ 2 ^ j := abs_le.2 ⟨le_nearest onGrid.neg low, nearest_le onGrid high⟩
  obtain ⟨hf, hv⟩ := product.of_abs_lt (most.trans_lt (by
    rw [limit, ← zpow_natCast]
    exact zpow_lt_zpow_right₀ (by norm_num) (by omega)))
  exact ⟨hf, hv, hv ▸ most⟩

/-- Rounding to a whole number does not lead beyond one. -/
theorem abs_wholeAway_le {n : ℤ} (h : |q| ≤ n) : |wholeAway q| ≤ n := by
  obtain ⟨low, high⟩ := abs_le.1 h
  rw [abs_le, ← neg_le, ← wholeAway_neg]
  exact ⟨wholeAway_le (by linarith), wholeAway_le high⟩

/-- A value that is not too large for its places is rounded to the double nearest to a decimal number of no more units. -/
theorem exists_isNearest_roundTo (hp : places ≤ 15) (hj : j ≤ 1000) (hx : x.isFinite = true)
    (h : |value x| * 10 ^ places ≤ 2 ^ j) :
    ∃ k : ℤ, k = wholeAway (nearest (value x * 10 ^ places)) ∧ |k| ≤ 2 ^ j ∧ IsNearest (roundTo x places) (k / 10 ^ places) := by
  obtain ⟨finite, hv, most⟩ := scaled_of_le hp hj hx h
  refine ⟨_, congrArg wholeAway hv, ?_, isNearest_roundTo hp hx finite⟩
  exact abs_wholeAway_le (by exact_mod_cast most)

/-- Up to `2 ^ 50` units of the last place, scaling moves by an eighth of a unit at most and rounding to a whole number by a half. -/
theorem abs_scaled_sub_wholeAway_le (h : |q| ≤ 2 ^ 50) : |q - wholeAway (nearest q)| ≤ 3 / 4 := by
  have scaled : |nearest q - q| ≤ 2 ^ (-2 : ℤ) / 2 :=
    abs_nearest_sub_le_of_lt (h.trans_lt (by norm_num)) (by norm_num)
  have whole := abs_wholeAway_sub_le (nearest q)
  calc |q - wholeAway (nearest q)| = |(wholeAway (nearest q) - nearest q) + (nearest q - q)| := by
        rw [sub_add_sub_cancel, abs_sub_comm]
    _ ≤ |wholeAway (nearest q) - nearest q| + |nearest q - q| := abs_add_le _ _
    _ ≤ 1 / 2 + 2 ^ (-2 : ℤ) / 2 := add_le_add whole scaled
    _ ≤ 3 / 4 := by norm_num

/-- Rounding to decimal places works on the sign apart. -/
theorem roundTo_neg (x : Float) (places : ℕ) : roundTo (-x) places = -roundTo x places := by
  cases hx : x.isFinite with
  | false => rw [roundTo_of_infinite places hx, roundTo_of_infinite places (by rwa [isFinite_neg])]
  | true =>
    rw [roundTo_of_isFinite places hx, roundTo_of_isFinite places (by rwa [isFinite_neg]), neg_mul_double, round_neg, neg_div_double]

theorem roundTo_zero (hp : places ≤ 15) : roundTo 0 places = 0 := by
  have all : ∀ p : Fin 16, (roundTo 0 p).toBits = (0 : Float).toBits := by decide +kernel
  exact Float.toBits_inj.1 (all ⟨places, by omega⟩)

/-- A double nearest to a decimal number of at most `2 ^ 50` units of its last place stays, the sign of zero included. -/
theorem roundTo_of_isNearest (hp : places ≤ 15) (hk : |k| ≤ 2 ^ 50) (h : IsNearest x (k / 10 ^ places)) : roundTo x places = x := by
  have close := isClose_decimal hp (hk.trans (by norm_num)) h
  rcases eq_or_ne (value x) 0 with h0 | h0
  · rcases eq_zero_of_value_eq_zero close.isFinite h0 with rfl | rfl
    · exact roundTo_zero hp
    · rw [roundTo_neg, roundTo_zero hp]
  · obtain ⟨finite, ten⟩ := value_powerOfTen hp
    have hT := one_le_ten_pow places
    have scaled := close.mul finite (by norm_num [roundoff]) (by
      rw [ten]
      exact (isModerate_decimal hp (hk.trans (by norm_num))).inScale_mul (by linarith) ((ten_pow_le hp).trans (by norm_num)))
    rw [ten, div_mul_cancel₀ _ (by linarith)] at scaled
    have whole : wholeAway (value (x * powerOfTen places)) = k := by
      refine scaled.wholeAway_eq ?_
      have hk' : |(k : ℚ)| ≤ 2 ^ 50 := by exact_mod_cast hk
      calc ((1 + roundoff) * (1 + roundoff) - 1) * |(k : ℚ)| ≤ ((1 + roundoff) * (1 + roundoff) - 1) * 2 ^ 50 := by
            refine mul_le_mul_of_nonneg_left hk' ?_
            norm_num [roundoff]
        _ < 1 / 2 := by norm_num [roundoff]
    have again := isNearest_roundTo hp close.isFinite scaled.isFinite
    rw [whole] at again
    have same : value x = value (roundTo x places) := h.value_eq.trans again.value_eq.symm
    exact (eq_of_value_eq h.isNaN_eq again.isNaN_eq same h0).symm

/-! ## Conversions -/

/-- Degrees of opposite angles are opposite, bit for bit. -/
theorem toDegrees_neg (x : Float) : toDegrees (-x) = -toDegrees x := by
  rw [toDegrees, toDegrees, neg_mul_double, neg_div_double]

/-- So are radians. -/
theorem toRadians_neg (x : Float) : toRadians (-x) = -toRadians x := by
  rw [toRadians, toRadians, neg_mul_double, neg_div_double]

/-- Rounding to as many decimal places as settings may ask for keeps the order of numbers, infinities among them, and gives opposite results
of opposite values, signs of zeros included. A value of at most `2 ^ 50` units of the last place is rounded to the double nearest to a
decimal number within three quarters of a unit, and stays there when it is rounded again. The conversions between degrees and radians keep
the order and give opposite results of opposite values as well. -/
theorem roundTo_keeps_order_and_sign :
    (∀ places ≤ 15,
      (∀ v w : Float, v ≤ w → roundTo v places ≤ roundTo w places) ∧
        (∀ v : Float, roundTo (-v) places = -roundTo v places) ∧
          ∀ v : Float, v.isFinite = true → |value v| * 10 ^ places ≤ 2 ^ 50 →
            roundTo (roundTo v places) places = roundTo v places ∧
              ∃ k : ℤ, |value v * 10 ^ places - k| ≤ 3 / 4 ∧ IsNearest (roundTo v places) (k / 10 ^ places)) ∧
      (∀ v w : Float, v ≤ w → toDegrees v ≤ toDegrees w ∧ toRadians v ≤ toRadians w) ∧
        ∀ v : Float, toDegrees (-v) = -toDegrees v ∧ toRadians (-v) = -toRadians v := by
  refine ⟨fun places hp => ⟨?_, ?_, ?_⟩, ?_, ?_⟩
  · intro v w order
    exact (isMonotone_roundTo hp).le order
  · intro v
    exact roundTo_neg v places
  · intro v finite few
    obtain ⟨k, hk, small, near⟩ := exists_isNearest_roundTo hp (by norm_num) finite few
    refine ⟨roundTo_of_isNearest hp small near, k, ?_, near⟩
    rw [hk]
    refine abs_scaled_sub_wholeAway_le ?_
    rwa [abs_mul, abs_of_pos (zero_lt_one.trans_le (one_le_ten_pow places))]
  · intro v w order
    exact ⟨isMonotone_toDegrees.le order, isMonotone_toRadians.le order⟩
  · intro v
    exact ⟨toDegrees_neg v, toRadians_neg v⟩

/-- A longitude just short of the date line, whose twelve places fill 48 bits. -/
theorem roundTo_keeps_order_and_sign_twelve :
    let v : Float := 179.9999999999995
    v.isFinite = true ∧ |value v| * 10 ^ 12 ≤ 2 ^ 50 ∧ v ≤ 180 ∧
      roundTo v 12 ≤ roundTo 180 12 ∧ roundTo (-v) 12 = -roundTo v 12 ∧ roundTo (roundTo v 12) 12 = roundTo v 12 ∧
        ∃ k : ℤ, |value v * 10 ^ 12 - k| ≤ 3 / 4 ∧ IsNearest (roundTo v 12) (k / 10 ^ 12) := by
  intro v
  have finite : v.isFinite = true := by decide +kernel
  have few : |value v| * 10 ^ 12 ≤ 2 ^ 50 := by decide +kernel
  have order : v ≤ 180 := by decide +kernel
  obtain ⟨mono, odd, settles⟩ := roundTo_keeps_order_and_sign.1 12 (by norm_num)
  obtain ⟨again, near⟩ := settles v finite few
  exact ⟨finite, few, order, mono v 180 order, odd v, again, near⟩

end GlobeDrag.Angle
