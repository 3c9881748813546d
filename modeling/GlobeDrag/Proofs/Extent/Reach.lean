import GlobeDrag.Proofs.Extent.Width
import GlobeDrag.Proofs.Rectangle.Reach
import GlobeDrag.Settings

/-!
# How far an extent reaches

In degrees the bounds of a box lie where they do in radians. Rounding hides what a thin box is pushed beyond the pole and the date line,
or shows it.

Main statements: `reaches_ofRectangle` (the bounds in degrees) and `inRange_ofRectangle` (if the outermost box keeps to the ranges of
degrees, every box does).
-/

namespace GlobeDrag.Extent

open Angle Binary64
open Rectangle (outermost MayPassPole MayPassDateLine)

variable {anchor current : Point} {crossing : Bool} {precision : ℕ} {r : Rectangle}

/-- The degrees of the poles at every number of decimal places that settings may ask for. -/
theorem value_stored_quarterTurn (hp : precision ≤ 15) :
    value (stored precision quarterTurn) = 90 ∧ value (stored precision (-quarterTurn)) = -90 := by
  have all : ∀ p : Fin 16, value (stored p quarterTurn) = 90 ∧ value (stored p (-quarterTurn)) = -90 := by decide +kernel
  exact all ⟨precision, by omega⟩

/-- Where the bounds in degrees lie of a box between two points: in the ranges of degrees, except that a thin box close to their ends
may leave them, though not by more than the outermost box does. -/
structure Reaches (anchor current : Point) (crossing : Bool) (settings : Settings) (north south east west : Float) : Prop where
  le_south : -90 ≤ south
  south_le : south ≤ 90
  south_le_north : south ≤ north
  le_west : -180 ≤ west
  west_le : west ≤ 180
  le_east : -180 ≤ east
  north_le : ¬MayPassPole anchor current settings.epsilon → north ≤ 90
  east_le : ¬MayPassDateLine anchor current crossing settings.epsilon → east ≤ 180
  east_le_west : crossing = true → settings.epsilon ≤ 1 → east ≤ west
  north_le_outermost : north ≤ stored settings.precision (outermost settings.epsilon).north
  east_le_outermost : east ≤ stored settings.precision (outermost settings.epsilon).east

/-- An extent whose bounds, as far as they are there, are degrees in their ranges. -/
structure InRange (e : Extent) : Prop where
  latitude : ∀ d, e.north = some d ∨ e.south = some d → -90 ≤ d ∧ d ≤ 90
  longitude : ∀ d, e.east = some d ∨ e.west = some d → -180 ≤ d ∧ d ≤ 180

theorem inRange_empty : empty.InRange := ⟨fun _ h => h.elim nofun nofun, fun _ h => h.elim nofun nofun⟩

/-- Degrees make a point of any latitude and any longitude of such an extent. -/
theorem InRange.exists_point {e : Extent} (h : e.InRange) {lat lon : Float} (hlat : e.north = some lat ∨ e.south = some lat)
    (hlon : e.east = some lon ∨ e.west = some lon) : ∃ p, Point.ofDegrees lat lon = .ok p :=
  ⟨_, Point.ofDegrees_eq_ok.2 ⟨h.latitude lat hlat, h.longitude lon hlon, rfl⟩⟩

/-- An angle that does not exceed one with known degrees. -/
theorem stored_le (hp : precision ≤ 15) {x y d : Float} (h : x ≤ y) (hd : d.isNaN = false) (hy : value (stored precision y) = value d) :
    stored precision x ≤ d := by
  have hle := (isMonotone_stored hp).le h
  exact (le_iff_value_le (isNaN_of_le hle).1 hd).2 ((value_le_of_le hle).trans hy.le)

/-- Storing does not lead below a bound in degrees. -/
theorem le_stored (hp : precision ≤ 15) {x y d : Float} (h : y ≤ x) (hd : d.isNaN = false) (hy : value (stored precision y) = value d) :
    d ≤ stored precision x := by
  have hle := (isMonotone_stored hp).le h
  exact (le_iff_value_le hd (isNaN_of_le hle).2).2 (hy.ge.trans (value_le_of_le hle))

/-- Where the bounds of a box lie in radians, they lie in degrees. -/
theorem reaches_ofRectangle {settings : Settings} (hp : settings.precision ≤ 15) (h : r.Reaches anchor current crossing settings.epsilon) :
    Reaches anchor current crossing settings (stored settings.precision r.north) (stored settings.precision r.south)
      (stored settings.precision r.east) (stored settings.precision r.west) := by
  have mono := isMonotone_stored hp
  have v90 : value 90 = 90 ∧ value (-90) = -90 ∧ value (-180) = -180 := by decide +kernel
  obtain ⟨quarter, neg_quarter⟩ := value_stored_quarterTurn hp
  have half := value_stored_halfTurn hp
  have neg_half := value_stored_neg_halfTurn hp
  exact
    { le_south := le_stored hp h.le_south (by decide) (neg_quarter.trans v90.2.1.symm)
      south_le := stored_le hp h.south_le (by decide) (quarter.trans v90.1.symm)
      south_le_north := mono.le h.south_le_north
      le_west := le_stored hp h.le_west (by decide) (neg_half.trans v90.2.2.symm)
      west_le := stored_le hp h.west_le (by decide) (half.trans value_180.symm)
      le_east := le_stored hp h.le_east (by decide) (neg_half.trans v90.2.2.symm)
      north_le := fun stays => stored_le hp (h.north_le stays) (by decide) (quarter.trans v90.1.symm)
      east_le := fun stays => stored_le hp (h.east_le stays) (by decide) (half.trans value_180.symm)
      east_le_west := fun wraps small => mono.le (le_of_lt_double (h.east_lt_west wraps small))
      north_le_outermost := mono.le h.north_le_outermost
      east_le_outermost := mono.le h.east_le_outermost }

/-- A box given out keeps to the ranges of degrees if the outermost box does, or is not finite and therefore never given out. -/
theorem inRange_ofRectangle {settings : Settings} (hp : settings.precision ≤ 15) (h : r.Reaches anchor current crossing settings.epsilon)
    (hf : r.isFinite = true)
    (outer : (outermost settings.epsilon).isFinite = true → (ofRectangle (outermost settings.epsilon) settings.precision).InRange) :
    (ofRectangle r settings.precision).InRange := by
  have reach := reaches_ofRectangle hp h
  have north_le : stored settings.precision r.north ≤ 90 := by
    by_cases passes : MayPassPole anchor current settings.epsilon
    · have range := outer (h.isFinite_outermost (Or.inl passes) hf)
      exact le_of_le_of_le reach.north_le_outermost (range.latitude _ (Or.inl rfl)).2
    · exact reach.north_le passes
  have east_le : stored settings.precision r.east ≤ 180 := by
    by_cases passes : MayPassDateLine anchor current crossing settings.epsilon
    · have range := outer (h.isFinite_outermost (Or.inr passes) hf)
      exact le_of_le_of_le reach.east_le_outermost (range.longitude _ (Or.inl rfl)).2
    · exact reach.east_le passes
  constructor
  · rintro d (hd | hd)
    · rw [← Option.some.inj hd]
      exact ⟨le_of_le_of_le reach.le_south reach.south_le_north, north_le⟩
    · rw [← Option.some.inj hd]
      exact ⟨reach.le_south, reach.south_le⟩
  · rintro d (hd | hd)
    · rw [← Option.some.inj hd]
      exact ⟨reach.le_east, east_le⟩
    · rw [← Option.some.inj hd]
      exact ⟨reach.le_west, reach.west_le⟩

/-- Four decimal places hide what the default angle pushes a box beyond the pole and the date line. -/
theorem inRange_outermost_default : (ofRectangle (outermost defaultEpsilon) defaultPrecision).InRange := by
  have range : (-90 ≤ stored 4 (outermost defaultEpsilon).north ∧ stored 4 (outermost defaultEpsilon).north ≤ 90) ∧
      (-90 ≤ stored 4 (outermost defaultEpsilon).south ∧ stored 4 (outermost defaultEpsilon).south ≤ 90) ∧
      (-180 ≤ stored 4 (outermost defaultEpsilon).east ∧ stored 4 (outermost defaultEpsilon).east ≤ 180) ∧
      (-180 ≤ stored 4 (outermost defaultEpsilon).west ∧ stored 4 (outermost defaultEpsilon).west ≤ 180) := by
    decide +kernel
  constructor
  · rintro d (hd | hd) <;> rw [← Option.some.inj hd]
    · exact range.1
    · exact range.2.1
  · rintro d (hd | hd) <;> rw [← Option.some.inj hd]
    · exact range.2.2.1
    · exact range.2.2.2

end GlobeDrag.Extent
