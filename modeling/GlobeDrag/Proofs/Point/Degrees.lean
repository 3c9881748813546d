import GlobeDrag.Proofs.Binary64.Drift
import GlobeDrag.Proofs.Binary64.Successor
import GlobeDrag.Proofs.Rectangle.Reach

/-!
# Points from degrees

Degrees in their ranges make a point between the poles whose longitude is in the turn already. The western end of the longitudes is the
date line, which belongs to the east. The double next to that end is turned into radians with two roundings, and they leave it next to
the excluded end of the turn.

Main statement: `ofDegrees_keeps_range_and_order` (which degrees make a point, where it lies, and that the order of degrees is kept).
-/

namespace GlobeDrag.Point

open Angle Binary64

variable {lat lon lon' : Float} {p : Point}

/-! ## Errors -/

/-- When the latitude is reported. -/
theorem ofDegrees_eq_latitude {x : Float} :
    ofDegrees lat lon = .error (.latitude x) ↔ x = lat ∧ ¬(-90 ≤ lat ∧ lat ≤ 90) := by
  unfold ofDegrees
  split
  · next out => simp [out, eq_comm]
  · next mem =>
    rw [not_not] at mem
    split <;> simp [mem]

/-- When the longitude is. -/
theorem ofDegrees_eq_longitude {x : Float} : ofDegrees lat lon = .error (.longitude x) ↔
    x = lon ∧ (-90 ≤ lat ∧ lat ≤ 90) ∧ ¬(-180 ≤ lon ∧ lon ≤ 180) := by
  unfold ofDegrees
  split
  · next out => simp [out]
  · next mem =>
    rw [not_not] at mem
    split
    · next out => simp [mem, out, eq_comm]
    · next mem' =>
      rw [not_not] at mem'
      simp [mem']

theorem ofDegrees_ne_unreadable {t : String} : ofDegrees lat lon ≠ .error (.unreadable t) := by
  unfold ofDegrees
  split_ifs <;> simp

/-- A latitude out of range is reported. -/
theorem ofDegrees_of_latitude (h : ¬(-90 ≤ lat ∧ lat ≤ 90)) : ofDegrees lat lon = .error (.latitude lat) :=
  ofDegrees_eq_latitude.2 ⟨rfl, h⟩

/-- Behind a latitude in range, a longitude out of range is. -/
theorem ofDegrees_of_longitude (h : -90 ≤ lat ∧ lat ≤ 90) (h' : ¬(-180 ≤ lon ∧ lon ≤ 180)) :
    ofDegrees lat lon = .error (.longitude lon) :=
  ofDegrees_eq_longitude.2 ⟨rfl, h, h'⟩

/-- What is not a number is in no range. -/
theorem not_mem_of_isNaN {x low high : Float} (h : x.isNaN = true) : ¬(low ≤ x ∧ x ≤ high) := by
  rintro ⟨h1, -⟩
  rw [(isNaN_of_le h1).2] at h
  cases h

/-! ## Longitudes -/

/-- Half a turn in degrees is half a turn, bit for bit. -/
theorem toRadians_180 : toRadians 180 = halfTurn := Float.toBits_inj.1 (by decide +kernel)

theorem successor?_neg_180 : successor? (-180) = some (-179.99999999999997) := rfl

/-- East of the western end, longitudes are turned into radians like any other angle. -/
theorem longitudeOfDegrees_eq (h : -180 < lon) : longitudeOfDegrees lon = toRadians lon := by
  obtain ⟨n180, nlon⟩ := isNaN_of_lt h
  rw [longitudeOfDegrees]
  split
  · next ends =>
    rcases Bool.or_eq_true_iff.1 ends with east | west
    · have hv := (beq_iff_number.1 east).2.2
      rw [eq_of_value_eq nlon (by decide) hv (by rw [hv, value_180]; norm_num), toRadians_180]
    · have hv := (beq_iff_number.1 west).2.2
      exact absurd ((lt_iff_value_lt n180 nlon).1 h) hv.not_gt
  · rfl

/-- Rounding does not carry such a longitude onto the excluded end of the turn. -/
theorem neg_halfTurn_lt_toRadians (h : -180 < lon) : -halfTurn < toRadians lon := by
  obtain ⟨n180, nlon⟩ := isNaN_of_lt h
  have next : value (-179.99999999999997) ≤ value lon :=
    (successor?_least n180 successor?_neg_180).2 lon nlon ((lt_iff_value_lt n180 nlon).1 h)
  have first : value (-halfTurn) < value (toRadians (-179.99999999999997)) := by decide +kernel
  exact (lt_iff_value_lt (by decide) (isMonotone_toRadians.isNaN_eq nlon)).2
    (first.trans_le (isMonotone_toRadians.value_le (by decide) nlon next))

/-- A longitude in degrees is one in the turn. -/
theorem longitudeOfDegrees_mem (h : -180 ≤ lon ∧ lon ≤ 180) :
    -halfTurn < longitudeOfDegrees lon ∧ longitudeOfDegrees lon ≤ halfTurn := by
  by_cases west : -180 < lon
  · rw [longitudeOfDegrees_eq west]
    refine ⟨neg_halfTurn_lt_toRadians west, ?_⟩
    have := isMonotone_toRadians.le h.2
    rwa [toRadians_180] at this
  · have westernEnd : (lon == -180) = true := by
      obtain ⟨n180, nlon⟩ := isNaN_of_le h.1
      rw [beq_iff_value_eq nlon n180]
      exact le_antisymm (not_lt.1 fun h' => west ((lt_iff_value_lt n180 nlon).2 h')) (value_le_of_le h.1)
    rw [longitudeOfDegrees, westernEnd, Bool.or_true, if_pos rfl]
    exact ⟨by decide +kernel, by decide +kernel⟩

/-! ## Range and order -/

/-- Degrees make a point exactly if both are in their ranges, and the latitude is reported first. The point lies between the poles with
its longitude in the turn, where folding leaves it. A larger latitude does not lead further south, nor a larger longitude further west,
unless the smaller one is the western end. -/
theorem ofDegrees_keeps_range_and_order (lat lon : Float) :
    ((∃ p, ofDegrees lat lon = .ok p) ↔ (-90 ≤ lat ∧ lat ≤ 90) ∧ (-180 ≤ lon ∧ lon ≤ 180)) ∧
    (¬(-90 ≤ lat ∧ lat ≤ 90) → ofDegrees lat lon = .error (.latitude lat)) ∧
    (-90 ≤ lat ∧ lat ≤ 90 → ¬(-180 ≤ lon ∧ lon ≤ 180) → ofDegrees lat lon = .error (.longitude lon)) ∧
    (lat.isNaN = true ∨ lon.isNaN = true → ∀ p, ofDegrees lat lon ≠ .ok p) ∧
    ∀ p, ofDegrees lat lon = .ok p →
      (-quarterTurn ≤ p.latitude ∧ p.latitude ≤ quarterTurn) ∧ (-halfTurn < p.longitude ∧ p.longitude ≤ halfTurn) ∧
      p.normalize = p ∧
      ∀ lat' lon' p', ofDegrees lat' lon' = .ok p' →
        (lat ≤ lat' → p.latitude ≤ p'.latitude) ∧ (-180 < lon → lon ≤ lon' → p.longitude ≤ p'.longitude) := by
  refine ⟨?_, ofDegrees_of_latitude, ofDegrees_of_longitude, ?_, ?_⟩
  · constructor
    · rintro ⟨p, hp⟩
      obtain ⟨hlat, hlon, -⟩ := ofDegrees_eq_ok.1 hp
      exact ⟨hlat, hlon⟩
    · rintro ⟨hlat, hlon⟩
      exact ⟨_, ofDegrees_eq_ok.2 ⟨hlat, hlon, rfl⟩⟩
  · rintro nan p hp
    obtain ⟨hlat, hlon, -⟩ := ofDegrees_eq_ok.1 hp
    rcases nan with nan | nan
    · exact not_mem_of_isNaN nan hlat
    · exact not_mem_of_isNaN nan hlon
  · intro p hp
    obtain ⟨hlat, hlon, rfl⟩ := ofDegrees_eq_ok.1 hp
    have turn := longitudeOfDegrees_mem hlon
    refine ⟨⟨?_, ?_⟩, turn, congrArg (Point.mk _) (normalize_of_mem turn.1 turn.2), ?_⟩
    · exact le_of_le_of_le (by decide +kernel) (isMonotone_toRadians.le hlat.1)
    · have north := isMonotone_toRadians.le hlat.2
      rwa [toRadians_90] at north
    · intro lat' lon' p' hp'
      obtain ⟨-, -, rfl⟩ := ofDegrees_eq_ok.1 hp'
      refine ⟨isMonotone_toRadians.le, ?_⟩
      intro west hle
      rw [longitudeOfDegrees_eq west, longitudeOfDegrees_eq (lt_of_lt_of_le_double west hle)]
      exact isMonotone_toRadians.le hle

end GlobeDrag.Point
