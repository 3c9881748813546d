import GlobeDrag.Proofs.Angle.Places
import GlobeDrag.Proofs.Extent

/-!
# Degrees that come back

A double nearest to a decimal number of few digits survives the way through radians: the six roundings of it add up to less than half a
unit of the last place, and the last of them takes that away. By factors, that holds for numbers of 49 bits; where the spacings of the
doubles on the way are known, it holds for more of them.

Main statements: `isClose_toRadians` and `isClose_toDegrees` (the roundings of a conversion, by a factor), `stored_toRadians` (the way there
and back), `isWithin_toRadians` and `isWithin_toDegrees` (the roundings of a conversion, by a distance) and `stored_toRadians_of_steady`
(the way there and back within the range of a precision).
-/

namespace GlobeDrag.Extent

open Angle Binary64

variable {x : Float} {q f : ℚ}

/-! ## Conversions -/

/-- Going to radians takes two roundings. -/
theorem isClose_toRadians (h : IsClose f x q) (h1 : f ≤ 3 / 2) (h2 : f * (1 + roundoff) ≤ 3 / 2) (hq : IsModerate q) :
    IsClose (f * (1 + roundoff) * (1 + roundoff)) (toRadians x) (q * value halfTurn / 180) := by
  have lo := value_halfTurn_gt
  have hi := value_halfTurn_lt
  have times := h.mul isFinite_halfTurn h1 (hq.inScale_mul (by linarith) (by linarith))
  have parts := times.div (y := 180) (by decide) (by norm_num) h2 (by
    rw [value_180, mul_div_assoc]
    exact hq.inScale_mul (by linarith) (by linarith))
  rwa [value_180] at parts

/-- Coming back from radians takes two more. -/
theorem isClose_toDegrees (h : IsClose f x (q * value halfTurn / 180)) (h1 : f ≤ 3 / 2) (h2 : f * (1 + roundoff) ≤ 3 / 2)
    (hq : IsModerate q) : IsClose (f * (1 + roundoff) * (1 + roundoff)) (toDegrees x) q := by
  have lo := value_halfTurn_gt
  have hi := value_halfTurn_lt
  have times := h.mul (y := 180) (by decide) h1 (by
    rw [value_180, div_mul_cancel₀ _ (by norm_num)]
    exact hq.inScale_mul (by linarith) (by linarith))
  rw [value_180, div_mul_cancel₀ _ (by norm_num)] at times
  have parts := times.div isFinite_halfTurn value_halfTurn_pos.ne' h2 (by
    rw [mul_div_cancel_right₀ _ value_halfTurn_pos.ne', ← mul_one q]
    exact hq.inScale_mul (by norm_num) (by norm_num))
  rwa [mul_div_cancel_right₀ _ value_halfTurn_pos.ne'] at parts

/-! ## There and back -/

variable {precision : ℕ} {k : ℤ}

/-- A double nearest to a decimal number comes back from radians, and from there to a whole number of units of its last place, within six
roundings. -/
theorem isClose_scaled (hp : precision ≤ 15) (hk : |k| ≤ 2 ^ 60) (h : IsNearest x (k / 10 ^ precision)) :
    (toDegrees (toRadians x)).isFinite = true ∧
      IsClose ((1 + roundoff) ^ 6) (toDegrees (toRadians x) * powerOfTen precision) k := by
  obtain ⟨finite, ten⟩ := value_powerOfTen hp
  have hT := one_le_ten_pow precision
  have hq := isModerate_decimal hp hk
  have there := isClose_toRadians (isClose_decimal hp hk h) (by norm_num [roundoff]) (by norm_num [roundoff]) hq
  have back := isClose_toDegrees there (by norm_num [roundoff]) (by norm_num [roundoff]) hq
  have scaled := back.mul finite (by norm_num [roundoff]) (by
    rw [ten]
    exact hq.inScale_mul (by linarith) ((ten_pow_le hp).trans (by norm_num)))
  rw [ten, div_mul_cancel₀ _ (by linarith)] at scaled
  refine ⟨back.isFinite, ?_⟩
  convert scaled using 1
  ring

/-- The degrees kept of an angle are the double nearest to a decimal number. -/
theorem isNearest_stored (hp : precision ≤ 15) (hx : (toDegrees x).isFinite = true)
    (hx' : (toDegrees x * powerOfTen precision).isFinite = true) :
    IsNearest (stored precision x) (wholeAway (value (toDegrees x * powerOfTen precision)) / 10 ^ precision) :=
  isNearest_roundTo hp hx hx'

/-- Both zeros are kept, with their sign. -/
theorem stored_zero (hp : precision ≤ 15) :
    stored precision (toRadians 0) = 0 ∧ stored precision (toRadians (-0)) = -0 := by
  have all : ∀ p : Fin 16, (stored p (toRadians 0)).toBits = (0 : Float).toBits ∧
      (stored p (toRadians (-0))).toBits = (-0 : Float).toBits := by decide +kernel
  obtain ⟨h1, h2⟩ := all ⟨precision, by omega⟩
  exact ⟨Float.toBits_inj.1 h1, Float.toBits_inj.1 h2⟩

/-- A double nearest to a decimal number is kept, the sign of zero included, if it comes back from radians to the whole number of units
that it was. -/
theorem stored_eq_of_wholeAway (hp : precision ≤ 15) (hx : x.isFinite = true) (h : IsNearest x (k / 10 ^ precision))
    (degrees : (toDegrees (toRadians x)).isFinite = true) (scaled : (toDegrees (toRadians x) * powerOfTen precision).isFinite = true)
    (whole : wholeAway (value (toDegrees (toRadians x) * powerOfTen precision)) = k) : stored precision (toRadians x) = x := by
  rcases eq_or_ne (value x) 0 with h0 | h0
  · rcases eq_zero_of_value_eq_zero hx h0 with rfl | rfl
    · exact (stored_zero hp).1
    · exact (stored_zero hp).2
  · have again := isNearest_stored hp degrees scaled
    rw [whole] at again
    have same : value x = value (stored precision (toRadians x)) := h.value_eq.trans again.value_eq.symm
    exact (eq_of_value_eq h.isNaN_eq again.isNaN_eq same h0).symm

/-- A double nearest to a decimal number of at most 49 bits in its last place is kept on the way through radians, the sign of zero
included. -/
theorem stored_toRadians (hp : precision ≤ 15) (hk : |k| ≤ 2 ^ 49) (h : IsNearest x (k / 10 ^ precision)) :
    x.isFinite = true ∧ stored precision (toRadians x) = x := by
  have hk' : |k| ≤ 2 ^ 60 := hk.trans (by norm_num)
  have finite : x.isFinite = true := (isClose_decimal hp hk' h).isFinite
  obtain ⟨degrees, scaled⟩ := isClose_scaled hp hk' h
  refine ⟨finite, stored_eq_of_wholeAway hp finite h degrees scaled.isFinite (scaled.wholeAway_eq ?_)⟩
  have hk' : |(k : ℚ)| ≤ 2 ^ 49 := by exact_mod_cast hk
  calc ((1 + roundoff) ^ 6 - 1) * |(k : ℚ)| ≤ ((1 + roundoff) ^ 6 - 1) * 2 ^ 49 := by
        refine mul_le_mul_of_nonneg_left hk' ?_
        norm_num [roundoff]
    _ < 1 / 2 := by norm_num [roundoff]

/-! ## There and back within a range -/

variable {d : ℚ} {e t r : ℤ}

/-- Half a turn is more than three. -/
theorem half_le_mul_halfTurn {a : ℚ} (h : 0 ≤ a) : a / 2 ≤ a / 6 * value halfTurn := by
  calc a / 2 = a / 6 * 3 := by ring
    _ ≤ a / 6 * value halfTurn :=
        mul_le_mul_of_nonneg_left ((by norm_num : (3 : ℚ) ≤ 25 / 8).trans value_halfTurn_gt.le) (by linarith)

/-- Going to radians, by distance: a rounding of half a turn's size and one of an angle's. -/
theorem isWithin_toRadians (h : IsWithin d x q) (turn : (|q| + d) * value halfTurn < 2 ^ (t + 53))
    (radians : (|q| + d + 2 ^ t / 6) * value halfTurn / 180 < 2 ^ (r + 53)) (ht : |t| ≤ 100) (hr : |r| ≤ 100) :
    IsWithin ((d + 2 ^ t / 6 + 30 * 2 ^ r) * value halfTurn / 180) (toRadians x) (q * value halfTurn / 180) := by
  have size : |value halfTurn| = value halfTurn := abs_of_pos value_halfTurn_pos
  have whole : |(180 : ℚ)| = 180 := abs_of_pos (by norm_num)
  have turnRounding := half_le_mul_halfTurn (two_zpow_pos t).le
  have angleRounding := half_le_mul_halfTurn (two_zpow_pos r).le
  have times := (h.mul isFinite_halfTurn (by rwa [size]) ht).mono (b := (d + 2 ^ t / 6) * value halfTurn) (by
    rw [size]
    linarith)
  have parts := times.div (y := 180) (by decide) (by norm_num) (e := r) (by
    rw [value_180, whole, abs_mul, size, ← add_mul, ← add_assoc]
    exact radians) hr
  rw [value_180, whole] at parts
  exact parts.mono (by linarith)

/-- Coming back from radians, by distance: a rounding of half a turn's size and one of the degrees'. -/
theorem isWithin_toDegrees (h : IsWithin (d * value halfTurn / 180) x (q * value halfTurn / 180))
    (turn : (|q| + d) * value halfTurn < 2 ^ (t + 53)) (degrees : |q| + d + 2 ^ t / 6 < 2 ^ (e + 53)) (ht : |t| ≤ 100) (he : |e| ≤ 100) :
    IsWithin (d + 2 ^ t / 6 + 2 ^ e / 2) (toDegrees x) q := by
  have size : |value halfTurn| = value halfTurn := abs_of_pos value_halfTurn_pos
  have whole : |(180 : ℚ)| = 180 := abs_of_pos (by norm_num)
  have turnRounding := half_le_mul_halfTurn (two_zpow_pos t).le
  have times := h.mul (y := 180) (by decide) (e := t) (by
    rw [value_180, whole, abs_div, abs_mul, size, whole, ← add_div, ← add_mul, div_mul_cancel₀ _ (by norm_num)]
    exact turn) ht
  rw [value_180, whole, div_mul_cancel₀ _ (by norm_num), div_mul_cancel₀ _ (by norm_num)] at times
  have times := times.mono (b := (d + 2 ^ t / 6) * value halfTurn) (by linarith)
  have parts := times.div isFinite_halfTurn value_halfTurn_pos.ne' (e := e) (by
    rw [abs_mul, size, ← add_mul, mul_div_cancel_right₀ _ value_halfTurn_pos.ne', ← add_assoc]
    exact degrees) he
  rwa [size, mul_div_cancel_right₀ _ value_halfTurn_pos.ne', mul_div_cancel_right₀ _ value_halfTurn_pos.ne'] at parts

/-- What the roundings of degrees, of their product with half a turn and of an angle, with spacings `e`, `t` and `r`, come to in degrees on
the way there and back. -/
def drift (e t r : ℤ) : ℚ := 2 ^ e + 2 ^ t / 3 + 30 * 2 ^ r

/-- Degrees up to `c` are so small, for their decimal places, that all roundings on the way there and back come to less than half a unit
of the last place. -/
structure IsFine (precision : ℕ) (c : ℚ) (e t r : ℤ) : Prop where
  degrees : c + 1 / 2 / 10 ^ precision ≤ 2 ^ (e + 53)
  turn : (c + 1 / 2 / 10 ^ precision) * value halfTurn ≤ 2 ^ (t + 53)
  radians : (c + 1 / 2 / 10 ^ precision) * value halfTurn / 180 ≤ 2 ^ (r + 53)
  units : c * 10 ^ precision + 1 / 2 ≤ 2 ^ 50
  drift_lt : drift e t r * 10 ^ precision < 7 / 16
  spacings : |e| ≤ 100 ∧ |t| ≤ 100 ∧ |r| ≤ 100

namespace IsFine

variable {c : ℚ}

/-- Fine degrees leave room for all roundings below the powers of two that their spacings belong to. -/
theorem room (fine : IsFine precision c e t r) (hq : |q| ≤ c) (hd : d ≤ drift e t r) :
    |q| + d < 2 ^ (e + 53) ∧ (|q| + d) * value halfTurn < 2 ^ (t + 53) ∧ (|q| + d) * value halfTurn / 180 < 2 ^ (r + 53) := by
  have hT := zero_lt_one.trans_le (one_le_ten_pow precision)
  have small : drift e t r < 1 / 2 / 10 ^ precision := by
    rw [lt_div_iff₀ hT]
    exact fine.drift_lt.trans (by norm_num)
  have size : |q| + d < c + 1 / 2 / 10 ^ precision := by linarith
  have turn := mul_lt_mul_of_pos_right size value_halfTurn_pos
  exact ⟨size.trans_le fine.degrees, turn.trans_le fine.turn, (div_lt_div_of_pos_right turn (by norm_num)).trans_le fine.radians⟩

/-- Fine degrees come back from radians as near as all roundings come to. -/
theorem isWithin_back (fine : IsFine precision c e t r) (hq : |q| ≤ c) (h : IsNearest x q) :
    x.isFinite = true ∧ IsWithin (drift e t r) (toDegrees (toRadians x)) q := by
  obtain ⟨he, ht, hr⟩ := fine.spacings
  have e0 := two_zpow_pos e
  have t0 := two_zpow_pos t
  have r0 := two_zpow_pos r
  have room {d : ℚ} := fine.room (d := d) hq
  rw [drift] at room
  have typed : IsWithin (2 ^ e / 2) x q := by
    have := h.isWithin (d := 0) (e := e) (by rw [sub_self, abs_zero]) (room (by positivity)).1 he
    rwa [zero_add] at this
  have there := isWithin_toRadians typed (room (by linarith)).2.1 (r := r) (by
    rw [add_assoc]
    exact (room (by linarith)).2.2) ht hr
  have back := isWithin_toDegrees there (room (by linarith)).2.1 (e := e) (by
    rw [add_assoc]
    exact (room (by linarith)).1) ht he
  refine ⟨typed.isFinite, back.mono ?_⟩
  rw [drift]
  linarith

/-- Fine degrees are kept on the way through radians: they come back to the whole number of units that they were. -/
theorem stored_toRadians (fine : IsFine precision c e t r) (hp : precision ≤ 15) (hk : |(k : ℚ)| ≤ c * 10 ^ precision)
    (h : IsNearest x (k / 10 ^ precision)) : stored precision (toRadians x) = x := by
  obtain ⟨finite, ten⟩ := value_powerOfTen hp
  have hT := zero_lt_one.trans_le (one_le_ten_pow precision)
  have size : |(10 : ℚ) ^ precision| = 10 ^ precision := abs_of_pos hT
  have drift_lt := fine.drift_lt
  have units := fine.units
  obtain ⟨hx, back⟩ := fine.isWithin_back (by rwa [abs_div, size, div_le_iff₀ hT]) h
  have scaled := back.mul finite (e := -3) (by
    rw [ten, size, add_mul, abs_div, size, div_mul_cancel₀ _ hT.ne']
    norm_num
    linarith) (by norm_num)
  rw [ten, size, div_mul_cancel₀ _ hT.ne'] at scaled
  refine stored_eq_of_wholeAway hp hx h back.isFinite scaled.isFinite (scaled.wholeAway_eq ?_)
  norm_num
  linarith

end IsFine

/-! ### The precisions that can be set -/

/-- How large degrees may be for a number of decimal places, so that they come back from radians as they were: at twelve places and less
all of them, at thirteen every latitude. -/
def steadyDegrees : ℕ → ℚ
  | 13 => 112.58
  | 14 => 10.18
  | 15 => 1
  | _ => 180

/-- At twelve decimal places and less all degrees are fine. -/
theorem isFine_of_le (hp : precision ≤ 12) : IsFine precision 180 (-45) (-43) (-51) := by
  have hT : (10 : ℚ) ^ precision ≤ 10 ^ 12 := pow_le_pow_right₀ (by norm_num) hp
  have unit : (1 : ℚ) / 2 / 10 ^ precision ≤ 1 / 2 := div_le_self (by norm_num) (one_le_ten_pow precision)
  have turn : (180 + 1 / 2 / 10 ^ precision) * value halfTurn ≤ (180 + 1 / 2) * (16 / 5) :=
    mul_le_mul (by linarith) value_halfTurn_lt.le value_halfTurn_pos.le (by norm_num)
  constructor
  · norm_num
    linarith
  · exact turn.trans (by norm_num)
  · exact (div_le_div_of_nonneg_right turn (by norm_num)).trans (by norm_num)
  · linarith
  · calc drift (-45) (-43) (-51) * 10 ^ precision ≤ drift (-45) (-43) (-51) * 10 ^ 12 := by
          gcongr
          norm_num [drift]
      _ < 7 / 16 := by norm_num [drift]
  · decide

/-- At thirteen places degrees are fine up to 112.58. -/
theorem isFine_thirteen : IsFine 13 112.58 (-46) (-44) (-52) := by
  constructor <;> norm_num [drift, value_halfTurn]

/-- At fourteen places degrees are fine up to 10.18. -/
theorem isFine_fourteen : IsFine 14 10.18 (-49) (-48) (-55) := by
  constructor <;> norm_num [drift, value_halfTurn]

/-- At fifteen places degrees are fine below 1. -/
theorem isFine_fifteen : IsFine 15 (1 - 1 / 10 ^ 15) (-53) (-51) (-58) := by
  constructor <;> norm_num [drift, value_halfTurn]

/-- One degree is kept at fifteen places on the way through radians, in either direction. -/
theorem stored_one : stored 15 (toRadians 1) = 1 ∧ stored 15 (toRadians (-1)) = -1 := by
  constructor <;> exact Float.toBits_inj.1 (by decide +kernel)

/-- At fifteen places a double that is nearest to one degree, in either direction, is that degree. -/
theorem stored_toRadians_of_one (hk : |k| = 10 ^ 15) (h : IsNearest x (k / 10 ^ 15)) : stored 15 (toRadians x) = x := by
  have eq_x {y : Float} (finite : y.isFinite = true) (number : value y = k / 10 ^ 15) (h0 : value y ≠ 0) : x = y := by
    refine (eq_of_value_eq (isNaN_of_isFinite finite) h.isNaN_eq ?_ h0).symm
    have near := isNearest_value finite
    rw [number] at near
    exact near.value_eq.trans h.value_eq.symm
  obtain ⟨one, negOne⟩ := stored_one
  rcases (abs_eq (by norm_num)).1 hk with rfl | rfl
  · obtain rfl := eq_x isFinite_one (by norm_num) (by norm_num)
    exact one
  · obtain rfl := eq_x (y := -1) (by decide) (by norm_num) (by norm_num)
    exact negOne

/-- At twelve decimal places and less all degrees are steady. -/
theorem steadyDegrees_of_le (hp : precision ≤ 12) : steadyDegrees precision = 180 := by
  unfold steadyDegrees
  split <;> first | omega | rfl

/-- Steady degrees are kept on the way through radians. -/
theorem stored_toRadians_of_steady (hp : precision ≤ 15) (hk : |(k : ℚ)| ≤ steadyDegrees precision * 10 ^ precision)
    (h : IsNearest x (k / 10 ^ precision)) : stored precision (toRadians x) = x := by
  obtain hp' | rfl | rfl | rfl : precision ≤ 12 ∨ precision = 13 ∨ precision = 14 ∨ precision = 15 := by omega
  · rw [steadyDegrees_of_le hp'] at hk
    exact (isFine_of_le hp').stored_toRadians hp hk h
  · exact isFine_thirteen.stored_toRadians hp hk h
  · exact isFine_fourteen.stored_toRadians hp hk h
  · have most : |k| ≤ 10 ^ 15 := by
      rw [steadyDegrees, one_mul] at hk
      exact_mod_cast hk
    rcases most.eq_or_lt with one | less
    · exact stored_toRadians_of_one one h
    · refine isFine_fifteen.stored_toRadians hp ?_ h
      have : |k| ≤ 10 ^ 15 - 1 := by omega
      have : |(k : ℚ)| ≤ 10 ^ 15 - 1 := by exact_mod_cast this
      exact this.trans_eq (by norm_num)

end GlobeDrag.Extent
