import GlobeDrag.Proofs.Rectangle.Spanning

/-!
# How far a box reaches

The southern and the western bound of a box between two points of the globe lie on the globe. The northern and the eastern bound of a
thin box are pushed outward, and neither the pole nor the date line stops them. They reach no further than in the box of the single point
in the outermost corner, at the north pole and the date line.

Main statements: `Point.FromDegrees.onGlobe_normalize` (where points come from), `outermost_eq` (the box of the corner) and
`reaches_spanning` (the place of each bound).
-/

namespace GlobeDrag

open Angle Binary64 DateLine

/-! ## Points of the globe -/

namespace Angle

/-- A quarter of a turn in radians. -/
def quarterTurn : Float := halfTurn / 2

/-- A quarter of a turn is half of half a one. -/
theorem value_quarterTurn : value quarterTurn = value halfTurn / 2 := by decide +kernel

theorem isFinite_quarterTurn : quarterTurn.isFinite = true := by decide

/-- The north pole in radians, bit for bit. -/
theorem toRadians_90 : toRadians 90 = quarterTurn := Float.toBits_inj.1 (by decide +kernel)

/-- The south pole in radians. -/
theorem value_toRadians_neg_90 : value (toRadians (-90)) = -value quarterTurn := by decide +kernel

/-- The date line itself is not folded. -/
theorem normalize_halfTurn : normalize halfTurn = halfTurn :=
  normalize_of_mem (by decide +kernel) (by decide +kernel)

end Angle

namespace Point

/-- A point that degrees in their ranges stand for. -/
def FromDegrees (p : Point) : Prop :=
  ∃ lat lon, ofDegrees lat lon = .ok p

/-- A point between the poles with its longitude in the turn. -/
structure OnGlobe (p : Point) : Prop where
  isFinite_latitude : p.latitude.isFinite = true
  le_latitude : -value quarterTurn ≤ value p.latitude
  latitude_le : value p.latitude ≤ value quarterTurn
  inTurn : InTurn p.longitude

/-- The outermost corner of the globe in the north and the east. -/
def corner : Point := ⟨quarterTurn, halfTurn⟩

variable {p : Point}

/-- Degrees make a point exactly if they are in their ranges. -/
theorem ofDegrees_eq_ok {lat lon : Float} :
    ofDegrees lat lon = .ok p ↔
      (-90 ≤ lat ∧ lat ≤ 90) ∧ (-180 ≤ lon ∧ lon ≤ 180) ∧ p = ⟨toRadians lat, longitudeOfDegrees lon⟩ := by
  unfold ofDegrees
  split
  · next h => exact iff_of_false nofun fun h' => h h'.1
  · next h =>
    split
    · next h1 => exact iff_of_false nofun fun h' => h1 h'.2.1
    · next h1 =>
      rw [Except.ok.injEq, eq_comm]
      exact ⟨fun he => ⟨not_not.1 h, not_not.1 h1, he⟩, fun h' => h'.2.2⟩

/-- A longitude in degrees is finite. -/
theorem isFinite_longitudeOfDegrees {lon : Float} (h : -180 ≤ lon ∧ lon ≤ 180) : (longitudeOfDegrees lon).isFinite = true := by
  rw [longitudeOfDegrees]
  split
  · exact isFinite_halfTurn
  · exact isFinite_of_le_of_le (by decide +kernel) (by decide +kernel) (isMonotone_toRadians.le h.1) (isMonotone_toRadians.le h.2)

/-- A point made of degrees is finite, and with its longitude folded it lies on the globe. -/
theorem FromDegrees.onGlobe_normalize (h : p.FromDegrees) : p.isFinite = true ∧ p.normalize.OnGlobe := by
  obtain ⟨lat, lon, h⟩ := h
  obtain ⟨⟨h1, h2⟩, h3, rfl⟩ := ofDegrees_eq_ok.1 h
  have south := isMonotone_toRadians.le h1
  have north := isMonotone_toRadians.le h2
  rw [toRadians_90] at north
  have flat : (toRadians lat).isFinite = true := isFinite_of_le_of_le (by decide +kernel) isFinite_quarterTurn south north
  have flon := isFinite_longitudeOfDegrees h3
  exact ⟨Bool.and_eq_true_iff.2 ⟨flat, flon⟩, flat, value_toRadians_neg_90 ▸ value_le_of_le south, value_le_of_le north,
    inTurn_normalize flon⟩

/-- The corner is a point from degrees. -/
theorem fromDegrees_corner : corner.FromDegrees := by
  refine ⟨90, 180, ofDegrees_eq_ok.2 ⟨by decide +kernel, by decide +kernel, ?_⟩⟩
  rw [toRadians_90]
  rfl

/-- Its longitude is in the turn already. -/
theorem normalize_corner : corner.normalize = corner :=
  congrArg (Point.mk quarterTurn) normalize_halfTurn

end Point

namespace Rectangle

variable {anchor anchor' current : Point} {crossing : Bool} {epsilon : Float} {r : Rectangle}

/-! ## Thin boxes -/

/-- The box between two points is lower than `epsilon`, and its northern bound is pushed outward. -/
def IsLow (anchor current : Point) (epsilon : Float) : Prop :=
  greater anchor.latitude current.latitude - lesser anchor.latitude current.latitude < epsilon

instance : Decidable (IsLow anchor current epsilon) :=
  inferInstanceAs (Decidable (_ < _))

/-- The box between two points is narrower than `epsilon`, measured over the date line where it wraps, and its eastern bound is pushed
outward. -/
def IsNarrow (anchor current : Point) (crossing : Bool) (epsilon : Float) : Prop :=
  (bounds crossing anchor.longitude current.longitude).1 + (if crossing then fullTurn else 0) -
    (bounds crossing anchor.longitude current.longitude).2 < epsilon

instance : Decidable (IsNarrow anchor current crossing epsilon) :=
  inferInstanceAs (Decidable (_ < _))

/-- Boxes with bounds of the same values are equally narrow. -/
theorem IsNarrow.congr {current' : Point} (ha : anchor.longitude.isFinite = true) (hc : current.longitude.isFinite = true)
    (ha' : anchor'.longitude.isFinite = true) (hc' : current'.longitude.isFinite = true)
    (east : value (bounds crossing anchor.longitude current.longitude).1 =
      value (bounds crossing anchor'.longitude current'.longitude).1)
    (west : value (bounds crossing anchor.longitude current.longitude).2 =
      value (bounds crossing anchor'.longitude current'.longitude).2)
    (h : IsNarrow anchor current crossing epsilon) : IsNarrow anchor' current' crossing epsilon := by
  obtain ⟨fe, fw, -⟩ := value_bounds crossing ha hc
  obtain ⟨fe', fw', -⟩ := value_bounds crossing ha' hc'
  have fwrap : (if crossing then fullTurn else 0 : Float).isFinite = true ∧
      (largest + if crossing then fullTurn else 0).isFinite = true ∧
      (-largest + if crossing then fullTurn else 0).isFinite = true := by
    cases crossing <;> decide +kernel
  refine sub_lt_congr fw fw' (isFinite_add fe fwrap.2.1 fwrap.2.2) (isFinite_add fe' fwrap.2.1 fwrap.2.2) west ?_ h
  rw [(isNearest_add fe fwrap.1).value_eq, (isNearest_add fe' fwrap.1).value_eq, east]

/-- A low box is pushed outward so close to the north pole that it may pass it. -/
def MayPassPole (anchor current : Point) (epsilon : Float) : Prop :=
  IsLow anchor current epsilon ∧ value quarterTurn < value (greater anchor.latitude current.latitude) + value (2 * epsilon)

/-- A narrow box is pushed outward so close to the date line that it may pass it. -/
def MayPassDateLine (anchor current : Point) (crossing : Bool) (epsilon : Float) : Prop :=
  IsNarrow anchor current crossing epsilon ∧
    value halfTurn < value (bounds crossing anchor.longitude current.longitude).1 + value (2 * epsilon)

/-- Points at the same latitudes have equally low boxes. -/
theorem MayPassPole.congr (ha : anchor.latitude.isFinite = true) (ha' : anchor'.latitude.isFinite = true)
    (hc : current.latitude.isFinite = true) (hv : value anchor.latitude = value anchor'.latitude)
    (h : MayPassPole anchor current epsilon) : MayPassPole anchor' current epsilon := by
  obtain ⟨fl, fl', south⟩ := lesser_congr ha ha' hc hv
  obtain ⟨fg, fg', north⟩ := greater_congr ha ha' hc hv
  exact ⟨sub_lt_congr fl fl' fg fg' south north h.1, north ▸ h.2⟩

/-- Points at the same longitudes have equally narrow boxes. -/
theorem MayPassDateLine.congr (ha : anchor.longitude.isFinite = true) (ha' : anchor'.longitude.isFinite = true)
    (hc : current.longitude.isFinite = true) (hv : value anchor.longitude = value anchor'.longitude)
    (h : MayPassDateLine anchor current crossing epsilon) : MayPassDateLine anchor' current crossing epsilon := by
  obtain ⟨-, -, ve, vw⟩ := value_bounds crossing ha hc
  obtain ⟨-, -, ve', vw'⟩ := value_bounds crossing ha' hc
  rw [hv] at ve vw
  have east := ve.trans ve'.symm
  exact ⟨h.1.congr ha hc ha' hc east (vw.trans vw'.symm), east ▸ h.2⟩

/-! ## The outermost box -/

/-- The box of the single point in the outermost corner of the globe. -/
def outermost (epsilon : Float) : Rectangle :=
  spanning .corner .corner false epsilon

theorem lesser_self (x : Float) : lesser x x = x := by
  rw [lesser]
  split <;> rfl

theorem greater_self (x : Float) : greater x x = x := by
  rw [greater]
  split <;> rfl

/-- It is as thin as a box can be, and both bounds are pushed outward. -/
theorem outermost_eq (fε : epsilon.isFinite = true) (h0 : 0 < value epsilon) :
    outermost epsilon =
      ⟨widen quarterTurn quarterTurn epsilon, quarterTurn, widen halfTurn halfTurn epsilon, halfTurn⟩ := by
  have thin : ∀ {x : Float}, x.isNaN = false ∧ value x = 0 → x < epsilon := by
    rintro x ⟨nx, vx⟩
    rwa [lt_iff_value_lt nx (isNaN_of_isFinite fε), vx]
  have low : quarterTurn - quarterTurn < epsilon := thin (by decide +kernel)
  have narrow : halfTurn + 0 - halfTurn < epsilon := thin (by decide +kernel)
  have west : halfTurn - 0 = halfTurn := Float.toBits_inj.1 (by decide +kernel)
  simp only [outermost, spanning, Point.corner, bounds, lesser_self, greater_self, Bool.false_eq_true, if_false, if_pos low,
    if_pos narrow, west]

/-- The outermost box is finite as soon as twice the angle is. -/
theorem isFinite_outermost (fε : epsilon.isFinite = true) (h0 : 0 < value epsilon) (ht : (2 * epsilon).isFinite = true) :
    (outermost epsilon).isFinite = true := by
  have lower := value_halfTurn_pos
  have upper := value_halfTurn_lt
  have quarter := value_quarterTurn
  have north : (widen quarterTurn quarterTurn epsilon).isFinite = true :=
    (isFinite_widen_iff_of_few_turns isFinite_quarterTurn isFinite_quarterTurn (by linarith) (by linarith) (by linarith) (by linarith)
      fε h0.le).2 ht
  have east : (widen halfTurn halfTurn epsilon).isFinite = true :=
    (isFinite_widen_iff_of_few_turns isFinite_halfTurn isFinite_halfTurn (by linarith) (by linarith) (by linarith) (by linarith)
      fε h0.le).2 ht
  rw [outermost_eq fε h0, isFinite, north, east, isFinite_quarterTurn, isFinite_halfTurn]
  rfl

/-! ## The reach of a box -/

/-- Where the bounds of a box between two points lie: on the globe, except that a thin box close to the pole or the date line may pass
it, though not by more than the outermost box does. -/
structure Reaches (anchor current : Point) (crossing : Bool) (epsilon : Float) (r : Rectangle) : Prop where
  le_south : -quarterTurn ≤ r.south
  south_le : r.south ≤ quarterTurn
  south_le_north : r.south ≤ r.north
  le_west : -halfTurn ≤ r.west
  west_le : r.west ≤ halfTurn
  le_east : -halfTurn ≤ r.east
  north_le : ¬MayPassPole anchor current epsilon → r.north ≤ quarterTurn
  east_le : ¬MayPassDateLine anchor current crossing epsilon → r.east ≤ halfTurn
  east_lt_west : crossing = true → epsilon ≤ 1 → r.east < r.west
  north_le_outermost : r.north ≤ (outermost epsilon).north
  east_le_outermost : r.east ≤ (outermost epsilon).east
  /-- If a box that may pass is finite, so that it is given out, the outermost box is as well. -/
  isFinite_outermost : MayPassPole anchor current epsilon ∨ MayPassDateLine anchor current crossing epsilon → r.isFinite = true →
    (outermost epsilon).isFinite = true

/-- It does not depend on the sign of a zero in the anchor. -/
theorem Reaches.congr (h : r.Reaches anchor current crossing epsilon) (ha : anchor.OnGlobe) (ha' : anchor'.OnGlobe) (hc : current.OnGlobe)
    (hlat : value anchor.latitude = value anchor'.latitude) (hlon : value anchor.longitude = value anchor'.longitude) :
    r.Reaches anchor' current crossing epsilon := by
  have pole : MayPassPole anchor current epsilon ↔ MayPassPole anchor' current epsilon :=
    ⟨.congr ha.isFinite_latitude ha'.isFinite_latitude hc.isFinite_latitude hlat,
      .congr ha'.isFinite_latitude ha.isFinite_latitude hc.isFinite_latitude hlat.symm⟩
  have line : MayPassDateLine anchor current crossing epsilon ↔ MayPassDateLine anchor' current crossing epsilon :=
    ⟨.congr ha.inTurn.isFinite ha'.inTurn.isFinite hc.inTurn.isFinite hlon,
      .congr ha'.inTurn.isFinite ha.inTurn.isFinite hc.inTurn.isFinite hlon.symm⟩
  exact
    { h with
      north_le := fun stays => h.north_le (mt pole.1 stays)
      east_le := fun stays => h.east_le (mt line.1 stays)
      isFinite_outermost := fun passes => h.isFinite_outermost (passes.imp pole.2 line.2) }

/-- A bound that is pushed outward on a condition, where the span lies below `b`. -/
theorem value_guarded_le {p : Prop} [Decidable p] {low high b : Float} (hl : low.isFinite = true) (hh : high.isFinite = true)
    (hb : b.isFinite = true) (fε : epsilon.isFinite = true) (h0 : 0 ≤ value epsilon) (hle : value low ≤ value high)
    (hhigh : value high ≤ value b) (hspan : value b - value high < limit) :
    (¬(p ∧ value b < value high + value (2 * epsilon)) → value (if p then widen low high epsilon else high) ≤ value b) ∧
      value (if p then widen low high epsilon else high) ≤ value (widen b b epsilon) ∧
      (p → (if p then widen low high epsilon else high).isFinite = true → (2 * epsilon).isFinite = true) := by
  by_cases h : p
  · rw [if_pos h]
    refine ⟨?_, value_widen_mono hl hb hh hb fε h0 (hle.trans hhigh) hhigh, fun _ => isFinite_target hh fε h0⟩
    intro stays
    have room := not_lt.1 fun passes => stays ⟨h, passes⟩
    obtain ⟨nt, t0⟩ := zero_le_target fε h0
    have ht : (2 * epsilon).isFinite = true := isFinite_iff.2 ⟨nt, abs_lt.2 ⟨by linarith, by linarith⟩⟩
    exact value_widen_le_of_room hl hh hb fε h0 ht hle room
  · rw [if_neg h]
    exact ⟨fun _ => hhigh, hhigh.trans (le_value_widen b hb fε h0).2, fun h' => absurd h' h⟩

/-- The outer bounds of a finite box are finite. -/
theorem isFinite_outer_bounds (h : r.isFinite = true) : r.north.isFinite = true ∧ r.east.isFinite = true := by
  simp only [isFinite, Bool.and_eq_true] at h
  exact ⟨h.1.1.1, h.1.2⟩

/-- The latitudes between which the height of a box between two points of the globe is measured. -/
theorem latitudes_mem (ha : anchor.OnGlobe) (hc : current.OnGlobe) :
    let south := lesser anchor.latitude current.latitude
    let north := greater anchor.latitude current.latitude
    (south.isFinite = true ∧ -value quarterTurn ≤ value south) ∧ value south ≤ value north ∧
      north.isFinite = true ∧ value north ≤ value quarterTurn := by
  intro south north
  obtain ⟨fn, vn⟩ := value_greater ha.isFinite_latitude hc.isFinite_latitude
  obtain ⟨fs, vs⟩ := value_lesser ha.isFinite_latitude hc.isFinite_latitude
  rw [vn, vs]
  exact ⟨⟨fs, le_min ha.le_latitude hc.le_latitude⟩, min_le_max, fn, max_le ha.latitude_le hc.latitude_le⟩

/-- The turn that is added to the width of a box that wraps. -/
theorem wrap_mem (crossing : Bool) :
    (if crossing then fullTurn else 0 : Float).isFinite = true ∧ 0 ≤ value (if crossing then fullTurn else 0) ∧
      value (if crossing then fullTurn else 0) ≤ 2 * value halfTurn := by
  have half := value_halfTurn_pos
  cases crossing with
  | true =>
    rw [if_pos rfl, value_fullTurn]
    exact ⟨isFinite_fullTurn, by linarith, le_rfl⟩
  | false =>
    rw [if_neg Bool.false_ne_true, value_zero]
    exact ⟨isFinite_zero, le_rfl, by linarith⟩

/-- The longitudes between which its width is measured, the western one taken back by a turn where the box wraps. -/
theorem longitudes_mem (crossing : Bool) (ha : InTurn anchor.longitude) (hc : InTurn current.longitude) :
    let east := (bounds crossing anchor.longitude current.longitude).1
    let west := (bounds crossing anchor.longitude current.longitude).2
    let start := west - if crossing then fullTurn else 0
    (west.isFinite = true ∧ -value halfTurn ≤ value west ∧ value west ≤ value halfTurn) ∧ start.isFinite = true ∧
      value start ≤ value east ∧ east.isFinite = true ∧ -value halfTurn ≤ value east ∧ value east ≤ value halfTurn := by
  intro east west start
  obtain ⟨fe, fw, ve, vw⟩ := value_bounds crossing ha.isFinite hc.isFinite
  have a1 := ha.lt_value.le
  have a2 := ha.value_le
  have c1 := hc.lt_value.le
  have c2 := hc.value_le
  have least := le_min a1 c1
  have most := max_le a2 c2
  have between : min (value anchor.longitude) (value current.longitude) ≤ max (value anchor.longitude) (value current.longitude) :=
    min_le_max
  have full := value_fullTurn
  have far : (-10 : Float).isFinite = true ∧ value (-10) ≤ -value halfTurn - value fullTurn := by decide +kernel
  have wrap := (wrap_mem crossing).1
  have order : (-value halfTurn ≤ value west ∧ value west ≤ value halfTurn) ∧
      (-value halfTurn ≤ value east ∧ value east ≤ value halfTurn) ∧
      value (-10) ≤ value west - value (if crossing then fullTurn else 0) ∧
      value west - value (if crossing then fullTurn else 0) ≤ value east := by
    rw [ve, vw]
    cases crossing with
    | true =>
      simp only [if_true]
      refine ⟨⟨?_, ?_⟩, ⟨?_, ?_⟩, ?_, ?_⟩ <;> linarith
    | false =>
      simp only [Bool.false_eq_true, if_false, value_zero, sub_zero]
      refine ⟨⟨?_, ?_⟩, ⟨?_, ?_⟩, ?_, ?_⟩ <;> linarith [value_halfTurn_pos]
  obtain ⟨west_mem, east_mem, h1, h2⟩ := order
  obtain ⟨fl, -, -, hl⟩ := (isNearest_sub fw wrap).of_mem_Icc far.1 fe h1 h2
  exact ⟨⟨fw, west_mem⟩, fl, hl, fe, east_mem⟩

/-- The bounds of a box between two points of the globe that is marked as wrapping only across the prime meridian. -/
theorem reaches_spanning (ha : anchor.OnGlobe) (hc : current.OnGlobe)
    (across : crossing = true → Across anchor.longitude current.longitude) (fε : epsilon.isFinite = true) (h0 : 0 < value epsilon) :
    (spanning anchor current crossing epsilon).Reaches anchor current crossing epsilon := by
  have fa : anchor.isFinite = true := Bool.and_eq_true_iff.2 ⟨ha.isFinite_latitude, ha.inTurn.isFinite⟩
  have fc : current.isFinite = true := Bool.and_eq_true_iff.2 ⟨hc.isFinite_latitude, hc.inTurn.isFinite⟩
  have spans := spans_spanning crossing fa fc fε h0.le
  obtain ⟨⟨fs, le_south⟩, south_le_north, fn, hn⟩ := latitudes_mem ha hc
  obtain ⟨⟨fw, west_mem⟩, fl, hl, fe, le_east, he⟩ := longitudes_mem crossing ha.inTurn hc.inTurn
  have turn := (abs_lt.1 (abs_value_lt isFinite_fullTurn)).2
  rw [value_fullTurn] at turn
  have quarter := value_quarterTurn
  have half := value_halfTurn_pos
  obtain ⟨north_le, north_le_widen, north_finite⟩ :=
    value_guarded_le (p := IsLow anchor current epsilon) fs fn isFinite_quarterTurn fε h0.le south_le_north hn (by linarith)
  obtain ⟨east_le, east_le_widen, east_finite⟩ :=
    value_guarded_le (p := IsNarrow anchor current crossing epsilon) fl fe isFinite_halfTurn fε h0.le hl he (by linarith)
  have toFloat : ∀ {x y : Float}, x.isNaN = false → y.isNaN = false → value x ≤ value y → x ≤ y := fun hx hy =>
    (le_iff_value_le hx hy).2
  have nq := isNaN_of_isFinite isFinite_quarterTurn
  have nh := isNaN_of_isFinite isFinite_halfTurn
  have ns := isNaN_of_isFinite fs
  have nw := isNaN_of_isFinite fw
  refine
    { le_south := toFloat ((isNaN_neg _).trans nq) ns (by rw [value_neg]; exact le_south)
      south_le := toFloat ns nq (south_le_north.trans hn)
      south_le_north := toFloat ns spans.isNaN_north spans.south_le_north
      le_west := toFloat ((isNaN_neg _).trans nh) nw (by rw [value_neg]; exact west_mem.1)
      west_le := toFloat nw nh west_mem.2
      le_east := toFloat ((isNaN_neg _).trans nh) spans.isNaN_east (by rw [value_neg]; exact (spans.mem_turn ha.inTurn hc.inTurn).1)
      north_le := fun stays => toFloat spans.isNaN_north nq (north_le stays)
      east_le := fun stays => toFloat spans.isNaN_east nh (east_le stays)
      east_lt_west := ?_
      north_le_outermost := ?_
      east_le_outermost := ?_
      isFinite_outermost := ?_ }
  · intro wraps small
    have v1 := value_le_of_le small
    rw [value_one] at v1
    exact (ordered_spanning fa fc ha.inTurn hc.inTurn across fε h0.le v1).east_lt_west wraps
  · rw [outermost_eq fε h0]
    exact toFloat spans.isNaN_north (le_value_widen _ isFinite_quarterTurn fε h0.le).1 north_le_widen
  · rw [outermost_eq fε h0]
    exact toFloat spans.isNaN_east (le_value_widen _ isFinite_halfTurn fε h0.le).1 east_le_widen
  · intro passes finite
    obtain ⟨north, east⟩ := isFinite_outer_bounds finite
    refine Rectangle.isFinite_outermost fε h0 ?_
    rcases passes with ⟨low, -⟩ | ⟨narrow, -⟩
    · exact north_finite low north
    · exact east_finite narrow east

end Rectangle

end GlobeDrag
