import GlobeDrag.Proofs.Extent.Degrees
import GlobeDrag.Proofs.Extent.Width
import GlobeDrag.Proofs.Rectangle.Reach
import GlobeDrag.Proofs.Session

/-!
# Storing again

A stored extent that is read back as a box and stored again is the same extent at twelve decimal places and less. With more places that is
so of degrees up to a bound, which no latitude exceeds at thirteen places; beyond it the last digits may move.

Main statements: `stored_restored` (one bound), `stored_again` and, against what one might expect of every precision that can be set,
`stored_again_moves`.
-/

namespace GlobeDrag

open Angle Binary64

namespace Extent

variable {x y : Float} {precision : ℕ} {k : ℤ}

/-! ## Decimal numbers -/

/-- The degrees kept of an angle within half a turn are the double nearest to a decimal number. -/
theorem exists_isNearest_stored (hp : precision ≤ 15) (hx : x.isNaN = false) (h1 : -value halfTurn ≤ value x)
    (h2 : value x ≤ value halfTurn) : ∃ k : ℤ, |k| ≤ 2 ^ 58 ∧ IsNearest (stored precision x) (k / 10 ^ precision) := by
  obtain ⟨fh, hh⟩ := value_toDegrees_halfTurn
  obtain ⟨fl, hl⟩ := value_toDegrees_neg_halfTurn
  have mono := isMonotone_toDegrees
  have low : -180 ≤ value (toDegrees x) :=
    hl.symm.trans_le (mono.value_le (isNaN_of_isFinite isFinite_neg_halfTurn) hx (by rwa [value_neg]))
  have high : value (toDegrees x) ≤ 180 := (mono.value_le hx (isNaN_of_isFinite isFinite_halfTurn) h2).trans_eq hh
  have fd : (toDegrees x).isFinite = true := by
    refine isFinite_of_mem_Icc fl fh (mono.isNaN_eq hx) ?_ ?_
    · rwa [hl]
    · rwa [hh]
  have most : |value (toDegrees x)| * 10 ^ precision ≤ 2 ^ 58 := by
    calc |value (toDegrees x)| * 10 ^ precision ≤ 180 * 10 ^ 15 :=
          mul_le_mul (abs_le.2 ⟨low, high⟩) (ten_pow_le hp) (by positivity) (by norm_num)
      _ ≤ 2 ^ 58 := by norm_num
  obtain ⟨k, -, hk, near⟩ := exists_isNearest_roundTo hp (by norm_num) fd most
  exact ⟨k, hk, near⟩

/-- Half a unit is a small part of a large number, so rounding to a whole number hardly moves what is close to it. -/
theorem abs_wholeAway_sub_intCast_le {s : ℚ} (large : 2 ^ 49 ≤ |(k : ℚ)|) (near : |s - k| ≤ 7 * roundoff * |(k : ℚ)|) :
    |(wholeAway s : ℚ) - k| ≤ 15 * roundoff * |(k : ℚ)| := by
  calc |(wholeAway s : ℚ) - k| = |(wholeAway s - s) + (s - k)| := by rw [sub_add_sub_cancel]
    _ ≤ |wholeAway s - s| + |s - k| := abs_add_le _ _
    _ ≤ 1 / 2 + 7 * roundoff * |(k : ℚ)| := add_le_add (abs_wholeAway_sub_le s) near
    _ ≤ 8 * roundoff * |(k : ℚ)| + 7 * roundoff * |(k : ℚ)| := by
        refine add_le_add_left ?_ _
        rw [roundoff]
        linarith
    _ = 15 * roundoff * |(k : ℚ)| := by ring

/-- The doubles nearest to two decimal numbers that are close to each other are close as well. -/
theorem abs_value_sub_le {j : ℤ} (hp : precision ≤ 15) (hk : |k| ≤ 2 ^ 58) (hx : IsNearest x (k / 10 ^ precision))
    (hy : IsNearest y (j / 10 ^ precision)) (close : |(j : ℚ) - k| ≤ 15 * roundoff * |(k : ℚ)|) :
    |value y - value x| ≤ |value x| / 2 ^ 48 := by
  have hT := zero_lt_one.trans_le (one_le_ten_pow precision)
  have hu := roundoff_pos
  have hk0 := abs_nonneg (k : ℚ)
  have size : |(j : ℚ)| ≤ 2 * |(k : ℚ)| := by
    have : |(j : ℚ)| ≤ |(j : ℚ) - k| + |(k : ℚ)| := by simpa using abs_add_le ((j : ℚ) - k) k
    have small : 15 * roundoff ≤ 1 := by norm_num [roundoff]
    nlinarith
  have hj : |j| ≤ 2 ^ 60 := by
    have : |(k : ℚ)| ≤ 2 ^ 58 := by exact_mod_cast hk
    have : ((|j| : ℤ) : ℚ) ≤ 2 ^ 60 := by
      rw [Int.cast_abs]
      linarith
    exact_mod_cast this
  have first := (isClose_decimal hp (hk.trans (by norm_num)) hx).abs_sub_le
  have second := (isClose_decimal hp hj hy).abs_sub_le
  have apart : |(j : ℚ) / 10 ^ precision - k / 10 ^ precision| ≤ 15 * roundoff * (|(k : ℚ)| / 10 ^ precision) := by
    rw [← sub_div, abs_div, abs_of_pos hT, ← mul_div_assoc]
    exact div_le_div_of_nonneg_right close hT.le
  rw [add_sub_cancel_left, abs_div, abs_of_pos hT] at first second
  have size : |(j : ℚ)| / 10 ^ precision ≤ 2 * (|(k : ℚ)| / 10 ^ precision) := by
    rw [← mul_div_assoc]
    exact div_le_div_of_nonneg_right size hT.le
  have magnitude : |(k : ℚ) / 10 ^ precision| = |(k : ℚ)| / 10 ^ precision := by rw [abs_div, abs_of_pos hT]
  generalize |(k : ℚ)| / 10 ^ precision = m at first second apart size magnitude
  have hm : 0 ≤ m := magnitude ▸ abs_nonneg _
  have step : |value y - value x| ≤ 18 * roundoff * m := by
    have two := abs_sub_le (value y) (j / 10 ^ precision) (value x)
    have three := abs_sub_le ((j : ℚ) / 10 ^ precision) (k / 10 ^ precision) (value x)
    rw [abs_sub_comm ((k : ℚ) / 10 ^ precision)] at three
    have := mul_le_mul_of_nonneg_left size hu.le
    linarith
  have back : m ≤ 3 / 2 * |value x| := by
    have := abs_sub_abs_le_abs_sub ((k : ℚ) / 10 ^ precision) (value x)
    rw [abs_sub_comm, magnitude] at this
    have small : roundoff ≤ 1 / 3 := by norm_num [roundoff]
    nlinarith
  calc |value y - value x| ≤ 18 * roundoff * m := step
    _ ≤ 18 * roundoff * (3 / 2 * |value x|) := mul_le_mul_of_nonneg_left back (by linarith)
    _ ≤ |value x| / 2 ^ 48 := by
        rw [roundoff]
        linarith [abs_nonneg (value x)]

/-- On the way through radians the double nearest to a decimal number moves by a few digits in the 49th bit at most. -/
theorem abs_stored_toRadians_sub_le (hp : precision ≤ 15) (hk : |k| ≤ 2 ^ 58) (h : IsNearest x (k / 10 ^ precision)) :
    |value (stored precision (toRadians x)) - value x| ≤ |value x| / 2 ^ 48 := by
  rcases le_or_gt |k| (2 ^ 49) with small | large
  · rw [(stored_toRadians hp small h).2, sub_self, abs_zero]
    positivity
  · obtain ⟨degrees, scaled⟩ := isClose_scaled hp (hk.trans (by norm_num)) h
    refine abs_value_sub_le hp hk h (isNearest_stored hp degrees scaled.isFinite) (abs_wholeAway_sub_intCast_le ?_ ?_)
    · exact_mod_cast large.le
    · refine scaled.abs_sub_le.trans (mul_le_mul_of_nonneg_right ?_ (abs_nonneg _))
      norm_num [roundoff]

/-! ## One bound -/

/-- What storing again makes of a bound `x`: it is the same if its degrees are steady, and close to it in any case. -/
structure Keeps (precision : ℕ) (x y : Float) : Prop where
  eq_of_steady : |value x| ≤ steadyDegrees precision → y = x
  abs_sub_le : |value y - value x| ≤ |value x| / 2 ^ 48

/-- A decimal number has hardly more units of its last place than the double nearest to it. -/
theorem abs_units_le {n : ℤ} (hp : precision ≤ 15) (hk : |k| ≤ 2 ^ 60) (hn : n ≤ 2 ^ 50) (h : IsNearest x (k / 10 ^ precision))
    (hx : |value x| * 10 ^ precision ≤ n) : |k| ≤ n := by
  have hT := zero_lt_one.trans_le (one_le_ten_pow precision)
  have apart := (isClose_decimal hp hk h).abs_sub_le
  rw [add_sub_cancel_left, abs_div, abs_of_pos hT] at apart
  have larger := abs_sub_abs_le_abs_sub ((k : ℚ) / 10 ^ precision) (value x)
  rw [abs_sub_comm, abs_div, abs_of_pos hT] at larger
  have bound : (1 - roundoff) * |(k : ℚ)| ≤ n := by
    have : (1 - roundoff) * (|(k : ℚ)| / 10 ^ precision) ≤ |value x| := by linarith
    rw [← mul_div_assoc, div_le_iff₀ hT] at this
    exact this.trans hx
  have few : |(k : ℚ)| < n + 1 := by
    have : (n : ℚ) ≤ 2 ^ 50 := by exact_mod_cast hn
    rw [roundoff] at bound
    linarith
  have : |k| < n + 1 := by exact_mod_cast few
  omega

/-- Steady degrees are a whole number of units of the last place, of 50 bits at most. -/
theorem exists_steady_units (hp : precision ≤ 15) : ∃ n : ℤ, n ≤ 2 ^ 50 ∧ steadyDegrees precision * 10 ^ precision = n := by
  obtain hp' | rfl | rfl | rfl : precision ≤ 12 ∨ precision = 13 ∨ precision = 14 ∨ precision = 15 := by omega
  · refine ⟨180 * 10 ^ precision, ?_, by rw [steadyDegrees_of_le hp']; norm_cast⟩
    calc (180 : ℤ) * 10 ^ precision ≤ 180 * 10 ^ 12 := by gcongr; norm_num
      _ ≤ 2 ^ 50 := by norm_num
  · exact ⟨1125800000000000, by norm_num, by norm_num [steadyDegrees]⟩
  · exact ⟨1018000000000000, by norm_num, by norm_num [steadyDegrees]⟩
  · exact ⟨1000000000000000, by norm_num, by norm_num [steadyDegrees]⟩

/-- A bound within half a turn is kept. -/
theorem stored_restored (hp : precision ≤ 15) (h1 : -halfTurn ≤ x) (h2 : x ≤ halfTurn) :
    (stored precision x).isFinite = true ∧ Keeps precision (stored precision x) (stored precision (restored precision x)) := by
  have hl := value_le_of_le h1
  rw [value_neg] at hl
  obtain ⟨k, hk, near⟩ := exists_isNearest_stored hp (isNaN_of_le h2).1 hl (value_le_of_le h2)
  have hk' : |k| ≤ 2 ^ 60 := hk.trans (by norm_num)
  refine ⟨(isClose_decimal hp hk' near).isFinite, fun steady => stored_toRadians_of_steady hp ?_ near,
    abs_stored_toRadians_sub_le hp hk near⟩
  obtain ⟨n, hn, units⟩ := exists_steady_units hp
  rw [units]
  exact_mod_cast abs_units_le hp hk' hn near ((mul_le_mul_of_nonneg_right steady (by positivity)).trans_eq units)

/-- At twelve decimal places every bound within half a turn is steady. -/
theorem stored_steady (hp : precision ≤ 12) (h1 : -halfTurn ≤ x) (h2 : x ≤ halfTurn) :
    |value (stored precision x)| ≤ steadyDegrees precision := by
  have hp' : precision ≤ 15 := by omega
  have mono := isMonotone_stored hp'
  have low := value_le_of_le (mono.le h1)
  have high := value_le_of_le (mono.le h2)
  rw [value_stored_neg_halfTurn hp'] at low
  rw [value_stored_halfTurn hp'] at high
  rw [steadyDegrees_of_le hp]
  exact abs_le.2 ⟨low, high⟩

end Extent

/-! ## All bounds -/

/-- A box with its latitudes between the poles and its longitudes between the two ends of the turn. -/
structure Rectangle.IsOnGlobe (r : Rectangle) : Prop where
  north : -quarterTurn ≤ r.north ∧ r.north ≤ quarterTurn
  south : -quarterTurn ≤ r.south ∧ r.south ≤ quarterTurn
  east : -halfTurn ≤ r.east ∧ r.east ≤ halfTurn
  west : -halfTurn ≤ r.west ∧ r.west ≤ halfTurn

/-- All bounds of such a box are within half a turn. -/
theorem Rectangle.IsOnGlobe.within_half {r : Rectangle} (h : r.IsOnGlobe) :
    (-halfTurn ≤ r.north ∧ r.north ≤ halfTurn) ∧ (-halfTurn ≤ r.south ∧ r.south ≤ halfTurn) ∧
      (-halfTurn ≤ r.east ∧ r.east ≤ halfTurn) ∧ -halfTurn ≤ r.west ∧ r.west ≤ halfTurn := by
  have low : -halfTurn ≤ -quarterTurn := by decide +kernel
  have high : quarterTurn ≤ halfTurn := by decide +kernel
  exact ⟨⟨le_of_le_of_le low h.north.1, le_of_le_of_le h.north.2 high⟩, ⟨le_of_le_of_le low h.south.1, le_of_le_of_le h.south.2 high⟩,
    h.east, h.west⟩

namespace Extent

/-- An extent with finite degrees has a box. -/
theorem rectangle?_of_finiteBounds {r : Rectangle} (h : FiniteBounds precision r) :
    (ofRectangle r precision).rectangle? = some (restoredBox precision r) := by
  have keep {x : Float} (hx : x.isFinite = true) : (some x).filter Float.isFinite = some x := Option.filter_some_pos hx
  have filters : (ofRectangle r precision).rectangle? = (do
      let north ← (some (stored precision r.north)).filter Float.isFinite
      let south ← (some (stored precision r.south)).filter Float.isFinite
      let east ← (some (stored precision r.east)).filter Float.isFinite
      let west ← (some (stored precision r.west)).filter Float.isFinite
      return ⟨toRadians north, toRadians south, toRadians east, toRadians west⟩) := rfl
  rw [filters, keep h.north, keep h.south, keep h.east, keep h.west]
  rfl

/-- With any settings that can be used, the extent of a box on the globe is read back as a box, and storing that keeps each bound: exactly
if its degrees are steady, which at twelve places and less they always are, and otherwise up to its last digits. -/
theorem stored_again {settings : Settings} (valid : settings.validate = .ok ()) {r : Rectangle} (hr : r.IsOnGlobe) :
    ∃ r', (ofRectangle r settings.precision).rectangle? = some r' ∧
      (settings.precision ≤ 12 → ofRectangle r' settings.precision = ofRectangle r settings.precision) ∧
      ∀ bound ∈ [Extent.north, Extent.south, Extent.east, Extent.west], ∃ x y,
        bound (ofRectangle r settings.precision) = some x ∧ bound (ofRectangle r' settings.precision) = some y ∧
          (|value x| ≤ steadyDegrees settings.precision → y = x) ∧ |value y - value x| ≤ |value x| / 2 ^ 48 := by
  obtain ⟨-, -, hp⟩ := Settings.of_validate valid
  obtain ⟨⟨n1, n2⟩, ⟨s1, s2⟩, ⟨e1, e2⟩, w1, w2⟩ := hr.within_half
  obtain ⟨fn, north⟩ := stored_restored hp n1 n2
  obtain ⟨fs, south⟩ := stored_restored hp s1 s2
  obtain ⟨fe, east⟩ := stored_restored hp e1 e2
  obtain ⟨fw, west⟩ := stored_restored hp w1 w2
  refine ⟨restoredBox settings.precision r, ?_, fun short => ?_, ?_⟩
  · exact rectangle?_of_finiteBounds ⟨fn, fs, fe, fw⟩
  · change Extent.mk (some (stored settings.precision (restored settings.precision r.north)))
      (some (stored settings.precision (restored settings.precision r.south)))
      (some (stored settings.precision (restored settings.precision r.east)))
      (some (stored settings.precision (restored settings.precision r.west))) = _
    rw [north.eq_of_steady (stored_steady short n1 n2), south.eq_of_steady (stored_steady short s1 s2),
      east.eq_of_steady (stored_steady short e1 e2), west.eq_of_steady (stored_steady short w1 w2)]
    rfl
  · intro bound hb
    simp only [List.mem_cons, List.not_mem_nil, or_false] at hb
    obtain rfl | rfl | rfl | rfl := hb
    · exact ⟨_, _, rfl, rfl, north.eq_of_steady, north.abs_sub_le⟩
    · exact ⟨_, _, rfl, rfl, south.eq_of_steady, south.abs_sub_le⟩
    · exact ⟨_, _, rfl, rfl, east.eq_of_steady, east.abs_sub_le⟩
    · exact ⟨_, _, rfl, rfl, west.eq_of_steady, west.abs_sub_le⟩

/-- The box of a drag over the date line at the default settings. -/
theorem stored_again_default :
    let r : Rectangle := ⟨0.3, 0.2, -3.1, 3.1⟩
    ({} : Settings).validate = .ok () ∧ r.IsOnGlobe ∧
      ∃ r', (ofRectangle r defaultPrecision).rectangle? = some r' ∧ ofRectangle r' defaultPrecision = ofRectangle r defaultPrecision := by
  intro r
  have on : r.IsOnGlobe := by constructor <;> decide +kernel
  have valid : ({} : Settings).validate = .ok () := rfl
  obtain ⟨r', restored, same, -⟩ := stored_again valid on
  exact ⟨valid, on, r', restored, same (by decide)⟩

/-- With more than twelve places a bound may move: at each number of places that settings allow beyond that there is a box whose extent
is another one after it was read back and stored again. -/
theorem stored_again_moves :
    let moves (precision : ℕ) (r : Rectangle) : Prop := ({ precision } : Settings).validate = .ok () ∧ r.IsOnGlobe ∧
      ∃ r', (ofRectangle r precision).rectangle? = some r' ∧ (ofRectangle r' precision == ofRectangle r precision) = false
    moves 13 ⟨1, 0, 2.2341400597848198, 0⟩ ∧ moves 14 ⟨1, 0, 0, -0.25009603362957167⟩ ∧ moves 15 ⟨1, 0, 0.04452179303912551, 0⟩ := by
  intro moves
  have moves_of {precision : ℕ} {r : Rectangle} (valid : ({ precision } : Settings).validate = .ok ()) (on : r.IsOnGlobe)
      (h : (ofRectangle r precision).rectangle?.any fun r' => ofRectangle r' precision != ofRectangle r precision) :
      moves precision r := by
    obtain ⟨r', restored, differ⟩ := (Option.any_eq_true _ _).1 h
    exact ⟨valid, on, r', restored, by rwa [bne, Bool.not_eq_true'] at differ⟩
  refine ⟨moves_of rfl ⟨?_, ?_, ?_, ?_⟩ ?_, moves_of rfl ⟨?_, ?_, ?_, ?_⟩ ?_, moves_of rfl ⟨?_, ?_, ?_, ?_⟩ ?_⟩ <;> decide +kernel

end Extent

end GlobeDrag
