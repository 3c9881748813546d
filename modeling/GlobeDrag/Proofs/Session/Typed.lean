import GlobeDrag.Proofs.Extent.Degrees
import GlobeDrag.Proofs.Extent.Width
import GlobeDrag.Proofs.Rectangle.Mirror
import GlobeDrag.Proofs.Session.Lifecycle
import GlobeDrag.Proofs.Trace.Replay

/-!
# Typed degrees come back

Degrees typed as decimal numbers, with no more places than the settings keep, are committed as they were typed: a drag from one such point
straight to another ends in their degrees, sorted into the four bounds.

Main statements: `Typed.latitude` and `Typed.longitude` (what typed degrees stand for), `Stands.corners` (two of them on one axis),
`answer_of_single_move` (a drag with a single move), and `committed_of_typed`.
-/

namespace GlobeDrag

open Angle Binary64 DateLine
open Extent (stored)

/-! ## One axis -/

/-- An angle that stands for degrees, a double, which stand for an exact number, and that is stored as those degrees. -/
structure Stands (precision : ℕ) (angle degrees : Float) (exact : ℚ) : Prop where
  isFinite : angle.isFinite = true
  isFinite_degrees : degrees.isFinite = true
  angle_close : |value angle - exact * value halfTurn / 180| ≤ 1 / 10 ^ 12
  degrees_close : |value degrees - exact| ≤ 1 / 10 ^ 12
  stored_eq : stored precision angle = degrees

/-- The larger and the smaller of two doubles. -/
def larger (x y : Float) : Float := if x < y then y else x

/-- The smaller of two longitudes. -/
def smaller (x y : Float) : Float := if x < y then x else y

variable {precision : ℕ} {x y d e : Float} {p q : ℚ}

/-- Two angles that stand for numbers apart are further apart than the default angle, and in the order of their degrees. -/
theorem Stands.apart (hx : Stands precision x d p) (hy : Stands precision y e q) (h : p + 1 / 10 ^ 5 ≤ q) :
    value x + value defaultEpsilon ≤ value y ∧ value x < value y ∧ d < e := by
  have small : 0 < value defaultEpsilon ∧ value defaultEpsilon ≤ 11 / 10 ^ 8 := by decide +kernel
  have turn := value_halfTurn_gt
  obtain ⟨-, x1⟩ := abs_le.1 hx.angle_close
  obtain ⟨y1, -⟩ := abs_le.1 hy.angle_close
  obtain ⟨-, d1⟩ := abs_le.1 hx.degrees_close
  obtain ⟨e1, -⟩ := abs_le.1 hy.degrees_close
  have gap : 1 / 10 ^ 5 * (25 / 8) / 180 ≤ q * value halfTurn / 180 - p * value halfTurn / 180 := by
    rw [← sub_div, ← sub_mul]
    have : 1 / 10 ^ 5 ≤ q - p := by linarith
    gcongr
  have apart : value x + value defaultEpsilon ≤ value y := by
    have : (11 : ℚ) / 10 ^ 8 + 2 / 10 ^ 12 ≤ 1 / 10 ^ 5 * (25 / 8) / 180 := by norm_num
    linarith
  refine ⟨apart, by linarith, (lt_iff_value_lt (isNaN_of_isFinite hx.isFinite_degrees) (isNaN_of_isFinite hy.isFinite_degrees)).2 ?_⟩
  have : (2 : ℚ) / 10 ^ 12 < 1 / 10 ^ 5 := by norm_num
  linarith

/-- The bounds that two such angles make are further apart than the default angle, and are stored as the larger and the smaller of their
degrees. -/
theorem Stands.corners (hx : Stands precision x d p) (hy : Stands precision y e q) (h : 1 / 10 ^ 5 ≤ |p - q|) :
    value (lesser x y) + value defaultEpsilon ≤ value (greater x y) ∧
      stored precision (greater x y) = larger d e ∧ stored precision (lesser x y) = smaller d e := by
  have nx := isNaN_of_isFinite hx.isFinite
  have ny := isNaN_of_isFinite hy.isFinite
  have self_x := (le_iff_value_le nx nx).2 le_rfl
  have self_y := (le_iff_value_le ny ny).2 le_rfl
  rcases le_abs.1 h with h | h
  · obtain ⟨apart, below, order⟩ := hy.apart hx (by linarith)
    have le : y ≤ x := (le_iff_value_le ny nx).2 below.le
    have not_le : ¬x ≤ y := fun h => absurd (value_le_of_le h) (not_le.2 below)
    have not_lt : ¬d < e := fun h => absurd (lt_iff_number.1 h).2.2 (lt_iff_number.1 order).2.2.asymm
    rw [greater, if_pos le, lesser, if_neg not_le, if_pos self_y, larger, if_neg not_lt, smaller, if_neg not_lt]
    exact ⟨apart, hx.stored_eq, hy.stored_eq⟩
  · obtain ⟨apart, below, order⟩ := hx.apart hy (by linarith)
    have le : x ≤ y := (le_iff_value_le nx ny).2 below.le
    have not_le : ¬y ≤ x := fun h => absurd (value_le_of_le h) (not_le.2 below)
    rw [greater, if_neg not_le, if_pos self_y, lesser, if_pos le, larger, if_pos order, smaller, if_pos order]
    exact ⟨apart, hy.stored_eq, hx.stored_eq⟩

/-! ## Typed degrees -/

/-- The degrees of a longitude in the turn: the western name of the date line is replaced by the eastern one. -/
def eastward (lon : Float) : Float := if lon == -180 then 180 else lon

/-- The exact longitude that stands for the western end is the eastern one. -/
def eastwardExact (q : ℚ) : ℚ := if q = -180 then 180 else q

/-- A recorded position whose degrees are in range and are the doubles nearest to decimal numbers with the given places. -/
structure Typed (precision : ℕ) (p : TracePoint) (lat lon : ℤ) : Prop where
  inRange : p.InRange
  lat : IsNearest p.lat (lat / 10 ^ precision)
  lon : IsNearest p.lon (lon / 10 ^ precision)

/-- Degrees in range are nearest to a number of few digits. -/
theorem exact_mem {k : ℤ} (hp : precision ≤ 12) (h : IsNearest d (k / 10 ^ precision)) (h1 : -180 ≤ d) (h2 : d ≤ 180) :
    |k| ≤ 2 ^ 49 ∧ |(k : ℚ) / 10 ^ precision| ≤ 181 ∧ |value d - k / 10 ^ precision| ≤ 1 / 10 ^ 13 := by
  have hT := zero_lt_one.trans_le (Angle.one_le_ten_pow precision)
  have bounds : value 181 = 181 ∧ value (-181) = -181 ∧ value (-180) = -180 := by decide +kernel
  have low := value_le_of_le h1
  have high := value_le_of_le h2
  rw [bounds.2.2] at low
  rw [value_180] at high
  have near : |(k : ℚ) / 10 ^ precision| ≤ 181 := by
    rw [abs_le]
    constructor
    · by_contra hlt
      have := h.value_le (x := -181) (by decide) (by rw [bounds.2.1]; linarith)
      rw [bounds.2.1] at this
      linarith
    · by_contra hlt
      have := h.le_value (x := 181) (by decide) (by rw [bounds.1]; linarith)
      rw [bounds.1] at this
      linarith
  have hk : |k| ≤ 2 ^ 49 := by
    have : |(k : ℚ)| ≤ 181 * 10 ^ precision := by rwa [abs_div, abs_of_pos hT, div_le_iff₀ hT] at near
    have : |(k : ℚ)| ≤ 2 ^ 49 := by
      calc |(k : ℚ)| ≤ 181 * 10 ^ precision := this
        _ ≤ 181 * 10 ^ 12 := by
            gcongr
            norm_num
        _ ≤ 2 ^ 49 := by norm_num
    exact_mod_cast this
  refine ⟨hk, near, (Angle.isClose_decimal (hp.trans (by norm_num)) (hk.trans (by norm_num)) h).abs_sub_le.trans ?_⟩
  rw [add_sub_cancel_left, roundoff]
  linarith

/-- In radians degrees stand for the number that they are nearest to. -/
theorem stands_toRadians {k : ℤ} (hp : precision ≤ 12) (h : IsNearest d (k / 10 ^ precision)) (h1 : -180 ≤ d) (h2 : d ≤ 180) :
    Stands precision (toRadians d) d (k / 10 ^ precision) := by
  have hp' : precision ≤ 15 := hp.trans (by norm_num)
  obtain ⟨hk, small, near⟩ := exact_mem hp h h1 h2
  have hk' : |k| ≤ 2 ^ 60 := hk.trans (by norm_num)
  obtain ⟨finite, kept⟩ := Extent.stored_toRadians hp' hk h
  have there := Extent.isClose_toRadians (Angle.isClose_decimal hp' hk' h) (by norm_num [roundoff]) (by norm_num [roundoff])
    (Angle.isModerate_decimal hp' hk')
  refine ⟨there.isFinite, finite, there.abs_sub_le.trans ?_, near.trans (by norm_num), kept⟩
  have turn := value_halfTurn_lt
  have pos := value_halfTurn_pos
  have size : |(k : ℚ) / 10 ^ precision * value halfTurn / 180| ≤ 4 := by
    rw [abs_div, abs_mul, abs_of_pos pos, abs_of_pos (show (0 : ℚ) < 180 by norm_num), div_le_iff₀ (by norm_num)]
    calc |(k : ℚ) / 10 ^ precision| * value halfTurn ≤ 181 * (16 / 5) := mul_le_mul small turn.le pos.le (by norm_num)
      _ ≤ 4 * 180 := by norm_num
  calc ((1 + roundoff) * (1 + roundoff) * (1 + roundoff) - 1) * |(k : ℚ) / 10 ^ precision * value halfTurn / 180|
      ≤ ((1 + roundoff) * (1 + roundoff) * (1 + roundoff) - 1) * 4 := mul_le_mul_of_nonneg_left size (by norm_num [roundoff])
    _ ≤ 1 / 10 ^ 12 := by norm_num [roundoff]

/-- Both names of the date line stand for its eastern one. -/
theorem stands_halfTurn (hp : precision ≤ 12) {q : ℚ} (hq : |180 - q| ≤ 1 / 10 ^ 13) : Stands precision halfTurn 180 q := by
  have kept : stored precision halfTurn = 180 := by
    have all : ∀ p : Fin 16, (stored p halfTurn).toBits = (180 : Float).toBits := by decide +kernel
    exact Float.toBits_inj.1 (all ⟨precision, by omega⟩)
  have turn := value_halfTurn_lt
  have pos := value_halfTurn_pos
  refine ⟨isFinite_halfTurn, by decide, ?_, ?_, kept⟩
  · have scaled : value halfTurn - q * value halfTurn / 180 = (180 - q) * (value halfTurn / 180) := by ring
    rw [scaled, abs_mul, abs_of_pos (div_pos pos (by norm_num))]
    calc |180 - q| * (value halfTurn / 180) ≤ 1 / 10 ^ 13 * 1 := mul_le_mul hq (by linarith) (by positivity) (by norm_num)
      _ ≤ 1 / 10 ^ 12 := by norm_num
  · rw [value_180]
    exact hq.trans (by norm_num)

/-- A decimal number so close to the date line is on it. -/
theorem eq_dateLine_of_abs_sub_le {lon : ℤ} (hp : precision ≤ 12)
    (near : |-180 - (lon : ℚ) / 10 ^ precision| ≤ 1 / 10 ^ 13) :
    (lon : ℚ) / 10 ^ precision = -180 := by
  have hT := zero_lt_one.trans_le (Angle.one_le_ten_pow precision)
  have fits : (10 : ℚ) ^ precision ≤ 10 ^ 12 := pow_le_pow_right₀ (by norm_num) hp
  have close : |((-180 * 10 ^ precision - lon : ℤ) : ℚ)| < 1 := by
    push_cast
    calc |-180 * 10 ^ precision - (lon : ℚ)| = |(-180 - (lon : ℚ) / 10 ^ precision) * 10 ^ precision| := by
          rw [sub_mul, div_mul_cancel₀ _ hT.ne']
      _ = |-180 - (lon : ℚ) / 10 ^ precision| * 10 ^ precision := by rw [abs_mul, abs_of_pos hT]
      _ ≤ 1 / 10 ^ 13 * 10 ^ 12 := mul_le_mul near fits hT.le (by norm_num)
      _ < 1 := by norm_num
  have zero : -180 * 10 ^ precision - lon = 0 := Int.abs_lt_one_iff.1 (by exact_mod_cast close)
  rw [div_eq_iff hT.ne']
  exact_mod_cast (sub_eq_zero.1 zero).symm

namespace Typed

variable {a b : TracePoint} {lat lon lat' lon' : ℤ}

/-- The latitude of a typed position stands for its degrees. -/
theorem latitude (hp : precision ≤ 12) (h : Typed precision a lat lon) :
    Stands precision a.position.latitude a.lat (lat / 10 ^ precision) := by
  have low : (-180 : Float) ≤ -90 := by decide +kernel
  have high : (90 : Float) ≤ 180 := by decide +kernel
  exact stands_toRadians hp h.lat (le_of_le_of_le low h.inRange.1.1) (le_of_le_of_le h.inRange.1.2 high)

/-- So does its longitude, the western end being the eastern one. -/
theorem longitude (hp : precision ≤ 12) (h : Typed precision a lat lon) :
    Stands precision a.position.longitude (eastward a.lon) (eastwardExact (lon / 10 ^ precision)) := by
  obtain ⟨h1, h2⟩ := h.inRange.2
  obtain ⟨-, -, near⟩ := exact_mem hp h.lon h1 h2
  have finite : a.lon.isFinite = true := isFinite_of_le_of_le (by decide) (by decide) h1 h2
  have number := isNaN_of_isFinite finite
  have is180 := beq_iff_value_eq number (y := 180) (by decide)
  have isNeg180 := beq_iff_value_eq number (y := -180) (by decide)
  have bounds : value (-180) = -180 := by decide +kernel
  rw [value_180] at is180
  rw [bounds] at isNeg180
  change Stands precision (Point.longitudeOfDegrees a.lon) _ _
  by_cases west : value a.lon = -180
  · rw [west] at near
    have exact := eq_dateLine_of_abs_sub_le hp near
    have beq := isNeg180.2 west
    rw [Point.longitudeOfDegrees, if_pos (by rw [beq, Bool.or_true]), eastward, if_pos beq, eastwardExact, if_pos exact]
    exact stands_halfTurn hp (by norm_num)
  · have exact : (lon : ℚ) / 10 ^ precision ≠ -180 := by
      intro h0
      have onGrid : OnGrid (-180) := bounds ▸ onGrid_value (-180)
      have hv := h.lon.value_of_isFinite finite
      rw [h0, nearest_of_onGrid onGrid] at hv
      exact west hv
    have nbeq : (a.lon == -180) = false := Bool.eq_false_iff.2 fun h => west (isNeg180.1 h)
    have degrees : eastward a.lon = a.lon := if_neg (ne_true_of_eq_false nbeq)
    rw [Point.longitudeOfDegrees, nbeq, Bool.or_false, degrees, eastwardExact, if_neg exact]
    by_cases east : value a.lon = 180
    · have same : a.lon = 180 := eq_of_value_eq number (by decide) (east.trans value_180.symm) (by rw [east]; norm_num)
      rw [if_pos (is180.2 east), same]
      rw [east] at near
      exact stands_halfTurn hp near
    · rw [if_neg fun h => east (is180.1 h)]
      exact stands_toRadians hp h.lon h1 h2

end Typed

/-- The longitude of a position in range is in the turn. -/
theorem TracePoint.InRange.normalize_position {a : TracePoint} (h : a.InRange) : a.position.normalize = a.position := by
  have bounds : value (-180) = -180 := by decide +kernel
  obtain ⟨h1, h2⟩ := h.2
  have number := isNaN_of_isFinite (isFinite_of_le_of_le (by decide) (by decide) h1 h2)
  have low := value_le_of_le h1
  have high := value_le_of_le h2
  rw [bounds] at low
  rw [value_180] at high
  have fixed : Angle.normalize (Point.longitudeOfDegrees a.lon) = Point.longitudeOfDegrees a.lon := by
    rw [Point.longitudeOfDegrees]
    split
    · exact normalize_halfTurn
    · next inside =>
      rw [Bool.or_eq_true, not_or, beq_iff_value_eq number (y := -180) (by decide), bounds] at inside
      obtain ⟨finite, -, below⟩ := Extent.toRadians_mem number low high
      refine normalize_of_mem ?_ ?_
      · rw [lt_iff_value_lt (isNaN_of_isFinite isFinite_neg_halfTurn) (isNaN_of_isFinite finite), value_neg]
        have mirrored : value (toRadians (-a.lon)) = -value (toRadians a.lon) := isOdd_toRadians.value_opposite number
        have last := Extent.toRadians_last_digits (x := -a.lon) (by rwa [isNaN_neg]) (by rw [value_neg]; linarith)
        rw [value_neg, mirrored, Extent.radianDigit] at last
        rcases last with ⟨h, -⟩ | ⟨-, h⟩ | ⟨-, h⟩
        · exact absurd (neg_eq_iff_eq_neg.1 h) inside.2
        · linarith
        · linarith
      · exact (le_iff_value_le (isNaN_of_isFinite finite) (isNaN_of_isFinite isFinite_halfTurn)).2 below
  exact congrArg (Point.mk _) fixed

/-! ## Boxes that are not thin -/

/-- A difference that is not below a double is not rounded below it. -/
theorem not_sub_lt {high low epsilon : Float} (fh : high.isFinite = true) (fl : low.isFinite = true) (fe : epsilon.isFinite = true)
    (h : value low + value epsilon ≤ value high) : ¬high - low < epsilon := by
  intro hlt
  have := (isNearest_sub fh fl).le_value fe (by linarith)
  exact absurd (lt_iff_number.1 hlt).2.2 (not_lt.2 this)

/-- Corners far enough apart on both axes span a box that is not thin. -/
theorem not_isThin {anchor current : Point} {epsilon : Float} (ha : anchor.isFinite = true) (hc : current.isFinite = true)
    (he : epsilon.isFinite = true)
    (high : value (lesser anchor.latitude current.latitude) + value epsilon ≤ value (greater anchor.latitude current.latitude))
    (wide : value (lesser anchor.longitude current.longitude) + value epsilon ≤ value (greater anchor.longitude current.longitude)) :
    ¬Rectangle.IsThin anchor current false epsilon := by
  obtain ⟨a1, a2⟩ := Rectangle.isFinite_point ha
  obtain ⟨c1, c2⟩ := Rectangle.isFinite_point hc
  rintro (low | narrow)
  · exact not_sub_lt (value_greater a1 c1).1 (value_lesser a1 c1).1 he high low
  · have fg := (value_greater a2 c2).1
    obtain ⟨fs, -, unmoved, -⟩ := (isNearest_add fg isFinite_zero).of_mem_Icc fg fg (by rw [value_zero, add_zero])
      (by rw [value_zero, add_zero])
    refine not_sub_lt fs (value_lesser a2 c2).1 he ?_ narrow
    exact wide.trans unmoved

/-! ## A drag with a single move -/

namespace Session

/-- The first position of a drag gives the box between the two points, as long as it is finite. -/
theorem box_of_first {anchor current : Point} (ha : anchor.isFinite = true) (hc : current.isFinite = true) {epsilon : Float}
    (h : (Rectangle.spanning anchor.normalize current.normalize false epsilon).isFinite = true) :
    (({ epsilon } : Tracker).update anchor current).box = some (.spanning anchor.normalize current.normalize false epsilon) := by
  have crossing := Tracker.crossing_update_of_new (t := { epsilon }) ha hc nofun
  rw [Tracker.crossing, Tracker.drag_update ha hc, Option.any_some] at crossing
  refine (Tracker.box_update ha hc _).2 ⟨?_, h⟩
  rw [Drag.box, crossing]
  rfl

/-- A drag with a single move commits the extent of its box. -/
theorem answer_of_single_move {settings : Settings} {anchor current : Point} (ha : anchor.isFinite = true) {box : Rectangle}
    (h : (({ epsilon := settings.epsilon } : Tracker).update anchor current).box = some box) :
    (((start settings).press (some anchor)).session.move (some current)).session.release.answer =
      some (.ofRectangle box settings.precision) := by
  have tracker : trackerOf settings anchor [] = { epsilon := settings.epsilon } := rfl
  rw [press_start ha]
  simp only [move, midDrag, tracker, h, release]

/-- A drag from one typed point straight to another commits their degrees, exactly. -/
theorem committed_of_typed {precision : ℕ} (hp : precision ≤ 12) {a b : TracePoint} {lat lon lat' lon' : ℤ}
    (ha : Typed precision a lat lon) (hb : Typed precision b lat' lon')
    (latitudes : 1 / 10 ^ 5 ≤ |(lat / 10 ^ precision - lat' / 10 ^ precision : ℚ)|)
    (longitudes : 1 / 10 ^ 5 ≤ |eastwardExact (lon / 10 ^ precision) - eastwardExact (lon' / 10 ^ precision)|) :
    ∃ anchor current, Point.ofDegrees a.lat a.lon = .ok anchor ∧ Point.ofDegrees b.lat b.lon = .ok current ∧
      (((start { precision }).press (some anchor)).session.move (some current)).session.release.answer =
        some ⟨some (larger a.lat b.lat), some (smaller a.lat b.lat),
          some (larger (eastward a.lon) (eastward b.lon)), some (smaller (eastward a.lon) (eastward b.lon))⟩ := by
  refine ⟨a.position, b.position, ha.inRange.point_eq, hb.inRange.point_eq, ?_⟩
  have fa := ha.inRange.isFinite
  have fb := hb.inRange.isFinite
  obtain ⟨high, north, south⟩ := (ha.latitude hp).corners (hb.latitude hp) latitudes
  obtain ⟨wide, east, west⟩ := (ha.longitude hp).corners (hb.longitude hp) longitudes
  have thick : ¬Rectangle.IsThin a.position b.position false defaultEpsilon := not_isThin fa fb (by decide) high wide
  have finite : (Rectangle.spanning a.position.normalize b.position.normalize false defaultEpsilon).isFinite = true := by
    rw [ha.inRange.normalize_position, hb.inRange.normalize_position]
    exact Rectangle.isFinite_spanning fa fb thick
  have box := box_of_first fa fb finite
  rw [ha.inRange.normalize_position, hb.inRange.normalize_position, Rectangle.spanning_of_not_isThin thick] at box
  rw [@answer_of_single_move { precision } a.position b.position fa _ box, ← north, ← south, ← east, ← west]
  rfl

/-- A drag from the date line, under its western name. -/
theorem committed_of_typed_date_line :
    let a : TracePoint := ⟨40.0001, -180⟩
    let b : TracePoint := ⟨-12.25, 3.5⟩
    Typed 4 a 400001 (-1800000) ∧ Typed 4 b (-122500) 35000 ∧
      ∃ anchor current, Point.ofDegrees a.lat a.lon = .ok anchor ∧ Point.ofDegrees b.lat b.lon = .ok current ∧
        (((start { precision := 4 }).press (some anchor)).session.move (some current)).session.release.answer =
          some ⟨some 40.0001, some (-12.25), some 180, some 3.5⟩ := by
  intro a b
  have ha : Typed 4 a 400001 (-1800000) := ⟨by decide +kernel, ⟨by decide, by decide +kernel⟩, ⟨by decide, by decide +kernel⟩⟩
  have hb : Typed 4 b (-122500) 35000 := ⟨by decide +kernel, ⟨by decide, by decide +kernel⟩, ⟨by decide, by decide +kernel⟩⟩
  obtain ⟨anchor, current, first, second, answer⟩ := committed_of_typed (by decide) ha hb (by norm_num) (by decide +kernel)
  refine ⟨ha, hb, anchor, current, first, second, answer.trans ?_⟩
  have north : larger a.lat b.lat = 40.0001 := Float.toBits_inj.1 (by decide +kernel)
  have south : smaller a.lat b.lat = -12.25 := Float.toBits_inj.1 (by decide +kernel)
  have east : larger (eastward a.lon) (eastward b.lon) = 180 := Float.toBits_inj.1 (by decide +kernel)
  have west : smaller (eastward a.lon) (eastward b.lon) = 3.5 := Float.toBits_inj.1 (by decide +kernel)
  rw [north, south, east, west]

end Session

end GlobeDrag
