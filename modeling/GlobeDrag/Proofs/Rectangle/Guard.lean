import GlobeDrag.Proofs.Binary64.Drift
import GlobeDrag.Proofs.Rectangle.Reach

/-!
# The guard against thin boxes

The box between two corners keeps its southern and its western bound at the corners. Its northern and its eastern bound are at the corners
too, unless the span between them is below the threshold; then the span is widened to at least twice the threshold.

Main statements: `atCorners_corners` (the box before it is widened), `north_guarded` and `east_guarded` (what widening does to it), and
`spanning_guarded`, which joins them.
-/

namespace GlobeDrag.Rectangle

open Angle Binary64 DateLine

/-! ## The box at the corners -/

/-- A double is the smaller one of two. -/
structure IsSmaller (x a b : Float) : Prop where
  eq_or_eq : x = a ∨ x = b
  le_left : x ≤ a
  le_right : x ≤ b

/-- A double is the larger one of two. -/
structure IsLarger (x a b : Float) : Prop where
  eq_or_eq : x = a ∨ x = b
  left_le : a ≤ x
  right_le : b ≤ x

/-- A box has its bounds at two corners. In the east is the larger longitude and in the west the smaller one, the other way round if the
box is marked as wrapping. -/
structure AtCorners (anchor current : Point) (crossing : Bool) (r : Rectangle) : Prop where
  south : IsSmaller r.south anchor.latitude current.latitude
  north : IsLarger r.north anchor.latitude current.latitude
  west : if crossing then IsLarger r.west anchor.longitude current.longitude
    else IsSmaller r.west anchor.longitude current.longitude
  east : if crossing then IsSmaller r.east anchor.longitude current.longitude
    else IsLarger r.east anchor.longitude current.longitude

/-- The box between two corners before it is widened. -/
def corners (anchor current : Point) (crossing : Bool) : Rectangle where
  north := greater anchor.latitude current.latitude
  south := lesser anchor.latitude current.latitude
  east := (bounds crossing anchor.longitude current.longitude).1
  west := (bounds crossing anchor.longitude current.longitude).2

variable {anchor current : Point} {crossing : Bool} {epsilon a b : Float}

/-- The lesser of two doubles is the smaller one. -/
theorem isSmaller_lesser (ha : a.isFinite = true) (hb : b.isFinite = true) : IsSmaller (lesser a b) a b := by
  obtain ⟨fl, vl⟩ := value_lesser ha hb
  refine ⟨?_, ?_, ?_⟩
  · rw [lesser, if_pos ((le_iff_value_le (isNaN_of_isFinite hb) (isNaN_of_isFinite hb)).2 le_rfl)]
    split
    · exact Or.inl rfl
    · exact Or.inr rfl
  · exact (le_iff_value_le (isNaN_of_isFinite fl) (isNaN_of_isFinite ha)).2 (vl.trans_le (min_le_left _ _))
  · exact (le_iff_value_le (isNaN_of_isFinite fl) (isNaN_of_isFinite hb)).2 (vl.trans_le (min_le_right _ _))

/-- The greater is the larger one. -/
theorem isLarger_greater (ha : a.isFinite = true) (hb : b.isFinite = true) : IsLarger (greater a b) a b := by
  obtain ⟨fg, vg⟩ := value_greater ha hb
  refine ⟨?_, ?_, ?_⟩
  · rw [greater, if_pos ((le_iff_value_le (isNaN_of_isFinite hb) (isNaN_of_isFinite hb)).2 le_rfl)]
    split
    · exact Or.inl rfl
    · exact Or.inr rfl
  · exact (le_iff_value_le (isNaN_of_isFinite ha) (isNaN_of_isFinite fg)).2 ((le_max_left _ _).trans_eq vg.symm)
  · exact (le_iff_value_le (isNaN_of_isFinite hb) (isNaN_of_isFinite fg)).2 ((le_max_right _ _).trans_eq vg.symm)

/-- The box at the corners has its bounds there. -/
theorem atCorners_corners (crossing : Bool) (ha : anchor.isFinite = true) (hc : current.isFinite = true) :
    (corners anchor current crossing).AtCorners anchor current crossing := by
  obtain ⟨a1, a2⟩ := isFinite_point ha
  obtain ⟨c1, c2⟩ := isFinite_point hc
  refine ⟨isSmaller_lesser a1 c1, isLarger_greater a1 c1, ?_, ?_⟩
  · cases crossing with
    | true => exact isLarger_greater a2 c2
    | false => exact isSmaller_lesser a2 c2
  · cases crossing with
    | true => exact isSmaller_lesser a2 c2
    | false => exact isLarger_greater a2 c2

/-! ## Spans -/

/-- The width of a box as it is measured before it is widened, over the date line if the box is marked as wrapping. -/
def guardedWidth (crossing : Bool) (r : Rectangle) : Float :=
  if crossing then r.east + fullTurn - r.west else r.east - r.west

/-- The width as it is measured while the box is widened. -/
def widenedWidth (crossing : Bool) (r : Rectangle) : Float :=
  if crossing then r.east - (r.west - fullTurn) else r.east - r.west

/-- Taking nothing from a double leaves it, up to the sign of a zero too. -/
theorem sub_zero_double {x : Float} (hx : x.isFinite = true) : x - 0 = x := by
  have h := isNearest_sub hx isFinite_zero
  have hv : value (x - 0) = value x := by
    rw [h.value_eq, value_zero, sub_zero, nearest_of_onGrid (onGrid_value x), clamp_of_abs_le (abs_value_lt hx).le]
  by_cases h0 : value x = 0
  · rcases eq_zero_of_value_eq_zero hx h0 with rfl | rfl <;> exact Float.toBits_inj.1 (by decide +kernel)
  · exact eq_of_value_eq h.isNaN_eq (isNaN_of_isFinite hx) hv (hv ▸ h0)

/-- The width as it is measured while the box is widened, in one formula. -/
theorem widenedWidth_eq {r : Rectangle} (crossing : Bool) (hw : r.west.isFinite = true) :
    r.widenedWidth crossing = r.east - (r.west - if crossing then fullTurn else 0) := by
  cases crossing with
  | true => rfl
  | false =>
    rw [if_neg Bool.false_ne_true, sub_zero_double hw]
    rfl

theorem value_2 : (2 : Float).isFinite = true ∧ value 2 = 2 := value_ofNat 2 (by decide)

/-- Twice an angle is not below it. -/
theorem le_target (fε : epsilon.isFinite = true) (h0 : 0 ≤ value epsilon) : epsilon ≤ 2 * epsilon := by
  have target := isNearest_mul value_2.1 fε
  rw [le_iff_value_le (isNaN_of_isFinite fε) target.isNaN_eq]
  exact target.le_value fε (by rw [value_2.2]; linarith)

/-- A box is low if its height at the corners is below the threshold. -/
theorem isLow_iff (crossing : Bool) (ha : anchor.isFinite = true) (hc : current.isFinite = true) (nε : epsilon.isNaN = false) :
    IsLow anchor current epsilon ↔ ¬epsilon ≤ (corners anchor current crossing).height := by
  obtain ⟨fn, -⟩ := value_greater (isFinite_point ha).1 (isFinite_point hc).1
  obtain ⟨fs, -⟩ := value_lesser (isFinite_point ha).1 (isFinite_point hc).1
  have nh := (isNearest_sub fn fs).isNaN_eq
  rw [height, corners, le_iff_value_le nε nh, not_le]
  exact lt_iff_value_lt nh nε

/-- It is narrow if its width at the corners is. -/
theorem isNarrow_iff (crossing : Bool) (ha : anchor.longitude.isFinite = true) (hc : current.longitude.isFinite = true)
    (nε : epsilon.isNaN = false) :
    IsNarrow anchor current crossing epsilon ↔ ¬epsilon ≤ (corners anchor current crossing).guardedWidth crossing := by
  obtain ⟨fe, fw, -⟩ := value_bounds crossing ha hc
  cases crossing with
  | true =>
    have turned : ((bounds true anchor.longitude current.longitude).1 + fullTurn).isFinite = true :=
      isFinite_add fe (by decide +kernel) (by decide +kernel)
    have nw := (isNearest_sub turned fw).isNaN_eq
    rw [guardedWidth, if_pos rfl, corners, le_iff_value_le nε nw, not_le]
    exact lt_iff_value_lt nw nε
  | false =>
    have nw := (isNearest_sub fe fw).isNaN_eq
    have same := isNearest_add fe isFinite_zero
    have unmoved : value ((bounds false anchor.longitude current.longitude).1 + 0) =
        value (bounds false anchor.longitude current.longitude).1 := by
      rw [same.value_eq, value_zero, add_zero, nearest_of_onGrid (onGrid_value _), clamp_of_abs_le (abs_value_lt fe).le]
    have fe' : ((bounds false anchor.longitude current.longitude).1 + 0).isFinite = true :=
      isFinite_add fe (by decide +kernel) (by decide +kernel)
    rw [guardedWidth, if_neg Bool.false_ne_true, corners, le_iff_value_le nε nw, not_le, ← lt_iff_value_lt nw nε]
    exact ⟨sub_lt_congr fw fw fe' fe rfl unmoved, sub_lt_congr fw fw fe fe' rfl unmoved.symm⟩

/-! ## What the guard does -/

/-- The northern bound, widened if the box is low. -/
theorem north_spanning (anchor current : Point) (crossing : Bool) (epsilon : Float) :
    (spanning anchor current crossing epsilon).north =
      if IsLow anchor current epsilon then
        widen (lesser anchor.latitude current.latitude) (greater anchor.latitude current.latitude) epsilon
      else greater anchor.latitude current.latitude := rfl

/-- The eastern bound, widened if the box is narrow. -/
theorem east_spanning (anchor current : Point) (crossing : Bool) (epsilon : Float) :
    (spanning anchor current crossing epsilon).east =
      if IsNarrow anchor current crossing epsilon then
        widen ((bounds crossing anchor.longitude current.longitude).2 - if crossing then fullTurn else 0)
          (bounds crossing anchor.longitude current.longitude).1 epsilon
      else (bounds crossing anchor.longitude current.longitude).1 := rfl

/-- The western bound is not moved. -/
theorem west_spanning (anchor current : Point) (crossing : Bool) (epsilon : Float) :
    (spanning anchor current crossing epsilon).west = (bounds crossing anchor.longitude current.longitude).2 := rfl

/-- The northern bound is at a corner, or it is widened to at least twice the threshold. -/
theorem north_guarded (crossing : Bool) (ha : anchor.isFinite = true) (hc : current.isFinite = true) (fε : epsilon.isFinite = true)
    (h0 : 0 ≤ value epsilon) :
    if epsilon ≤ (corners anchor current crossing).height
      then (spanning anchor current crossing epsilon).north = (corners anchor current crossing).north
      else 2 * epsilon ≤ (spanning anchor current crossing epsilon).height := by
  have low := isLow_iff crossing ha hc (isNaN_of_isFinite fε)
  obtain ⟨fn, -⟩ := value_greater (isFinite_point ha).1 (isFinite_point hc).1
  obtain ⟨fs, -⟩ := value_lesser (isFinite_point ha).1 (isFinite_point hc).1
  split
  · next high =>
    rw [north_spanning, if_neg fun h => low.1 h high]
    rfl
  · next h =>
    rw [height, north_spanning, if_pos (low.2 h)]
    exact target_le_widen_sub fs fn fε h0

/-- So is the eastern bound. -/
theorem east_guarded (crossing : Bool) (ta : InTurn anchor.longitude) (tc : InTurn current.longitude) (fε : epsilon.isFinite = true)
    (h0 : 0 ≤ value epsilon) :
    if epsilon ≤ (corners anchor current crossing).guardedWidth crossing
      then (spanning anchor current crossing epsilon).east = (corners anchor current crossing).east
      else 2 * epsilon ≤ (spanning anchor current crossing epsilon).widenedWidth crossing := by
  have narrow := isNarrow_iff crossing ta.isFinite tc.isFinite (isNaN_of_isFinite fε)
  obtain ⟨⟨fw, -⟩, fl, -, fe, -⟩ := longitudes_mem crossing ta tc
  split
  · next wide =>
    rw [east_spanning, if_neg fun h => narrow.1 h wide]
    rfl
  · next h =>
    have west : (spanning anchor current crossing epsilon).west.isFinite = true := west_spanning anchor current crossing epsilon ▸ fw
    rw [widenedWidth_eq crossing west, east_spanning, if_pos (narrow.2 h), west_spanning]
    exact target_le_widen_sub fl fe fε h0

/-! ## Corners exchanged -/

/-- A bound that is widened under a condition is known from the values of the span. -/
theorem value_ite_widen_congr {p p' : Prop} [Decidable p] [Decidable p'] {low low' high high' : Float} (hl : low.isFinite = true)
    (hl' : low'.isFinite = true) (hh : high.isFinite = true) (hh' : high'.isFinite = true) (fε : epsilon.isFinite = true)
    (h0 : 0 ≤ value epsilon) (hp : p ↔ p') (hlow : value low = value low') (hhigh : value high = value high') :
    value (if p then widen low high epsilon else high) = value (if p' then widen low' high' epsilon else high') := by
  by_cases h : p
  · rw [if_pos h, if_pos (hp.1 h)]
    exact le_antisymm (value_widen_mono hl hl' hh hh' fε h0 hlow.le hhigh.le) (value_widen_mono hl' hl hh' hh fε h0 hlow.ge hhigh.ge)
  · rw [if_neg h, if_neg fun h' => h (hp.2 h'), hhigh]

/-- The box between two corners does not depend on which of them comes first. -/
theorem spanning_comm (crossing : Bool) (ha : anchor.isFinite = true) (hc : current.isFinite = true) (ta : InTurn anchor.longitude)
    (tc : InTurn current.longitude) (fε : epsilon.isFinite = true) (h0 : 0 ≤ value epsilon) :
    (spanning anchor current crossing epsilon == spanning current anchor crossing epsilon) = true := by
  have spans := spans_spanning crossing ha hc fε h0
  have spans' := spans_spanning crossing hc ha fε h0
  obtain ⟨fs, vs⟩ := value_lesser (isFinite_point ha).1 (isFinite_point hc).1
  obtain ⟨fs', vs'⟩ := value_lesser (isFinite_point hc).1 (isFinite_point ha).1
  obtain ⟨fn, vn⟩ := value_greater (isFinite_point ha).1 (isFinite_point hc).1
  obtain ⟨fn', vn'⟩ := value_greater (isFinite_point hc).1 (isFinite_point ha).1
  have south : value (lesser anchor.latitude current.latitude) = value (lesser current.latitude anchor.latitude) := by
    rw [vs, vs', min_comm]
  have north : value (greater anchor.latitude current.latitude) = value (greater current.latitude anchor.latitude) := by
    rw [vn, vn', max_comm]
  have low : IsLow anchor current epsilon ↔ IsLow current anchor epsilon :=
    ⟨sub_lt_congr fs fs' fn fn' south north, sub_lt_congr fs' fs fn' fn south.symm north.symm⟩
  obtain ⟨⟨fw, -⟩, fl, -, fe, -⟩ := longitudes_mem crossing ta tc
  obtain ⟨⟨fw', -⟩, fl', -, fe', -⟩ := longitudes_mem crossing tc ta
  obtain ⟨-, -, ve, vw⟩ := value_bounds crossing ta.isFinite tc.isFinite
  obtain ⟨-, -, ve', vw'⟩ := value_bounds crossing tc.isFinite ta.isFinite
  rw [min_comm, max_comm] at ve' vw'
  have east := ve.trans ve'.symm
  have west := vw.trans vw'.symm
  have narrow : IsNarrow anchor current crossing epsilon ↔ IsNarrow current anchor crossing epsilon :=
    ⟨.congr ta.isFinite tc.isFinite tc.isFinite ta.isFinite east west,
      .congr tc.isFinite ta.isFinite ta.isFinite tc.isFinite east.symm west.symm⟩
  have fwrap := (wrap_mem crossing).1
  have start : value ((bounds crossing anchor.longitude current.longitude).2 - if crossing then fullTurn else 0) =
      value ((bounds crossing current.longitude anchor.longitude).2 - if crossing then fullTurn else 0) := by
    rw [(isNearest_sub fw fwrap).value_eq, (isNearest_sub fw' fwrap).value_eq, west]
  have equal {x y : Float} (hx : x.isNaN = false) (hy : y.isNaN = false) (hv : value x = value y) : (x == y) = true :=
    (beq_iff_value_eq hx hy).2 hv
  refine Bool.and_eq_true_iff.2 ⟨?_, Bool.and_eq_true_iff.2 ⟨?_, Bool.and_eq_true_iff.2 ⟨?_, ?_⟩⟩⟩
  · refine equal spans.isNaN_north spans'.isNaN_north ?_
    exact value_ite_widen_congr fs fs' fn fn' fε h0 low south north
  · exact equal (isNaN_of_isFinite fs) (isNaN_of_isFinite fs') south
  · refine equal spans.isNaN_east spans'.isNaN_east ?_
    exact value_ite_widen_congr fl fl' fe fe' fε h0 narrow start east
  · exact equal (isNaN_of_isFinite fw) (isNaN_of_isFinite fw') west

/-- The box between two points with longitudes in the turn does not depend on which of them comes first. Before it is widened its bounds are
at the points, and the southern and the western bound stay there. So does the northern bound if the height is not below the threshold, and
the eastern bound if the width is not; otherwise the span is at least twice the threshold afterwards. The height never is below it. -/
theorem spanning_guarded (crossing : Bool) (ha : anchor.isFinite = true) (hc : current.isFinite = true) (ta : InTurn anchor.longitude)
    (tc : InTurn current.longitude) (fε : epsilon.isFinite = true) (h0 : 0 < epsilon) :
    let r := spanning anchor current crossing epsilon
    (r == spanning current anchor crossing epsilon) = true ∧
    (∃ raw : Rectangle, raw.AtCorners anchor current crossing ∧ r.south = raw.south ∧ r.west = raw.west ∧
      (if epsilon ≤ raw.height then r.north = raw.north else 2 * epsilon ≤ r.height) ∧
      (if epsilon ≤ raw.guardedWidth crossing then r.east = raw.east else 2 * epsilon ≤ r.widenedWidth crossing)) ∧
    epsilon ≤ r.height := by
  intro r
  have v0 := (lt_iff_value_lt (isNaN_of_isFinite isFinite_zero) (isNaN_of_isFinite fε)).1 h0
  rw [value_zero] at v0
  have north := north_guarded crossing ha hc fε v0.le
  refine ⟨spanning_comm crossing ha hc ta tc fε v0.le, ⟨corners anchor current crossing, atCorners_corners crossing ha hc, rfl, rfl,
    north, east_guarded crossing ta tc fε v0.le⟩, ?_⟩
  split at north
  · next high =>
    have same : r.height = (corners anchor current crossing).height := congrArg (· - r.south) north
    rwa [same]
  · exact le_of_le_of_le (le_target fε v0.le) north

/-- The two sides of the date line, far north of any globe: the box is no higher than a point, and it is widened both ways. -/
theorem spanning_guarded_date_line :
    let anchor : Point := ⟨1e15, 3.14159265⟩
    let current : Point := ⟨1e15, -3.14159265⟩
    let r := spanning anchor current true defaultEpsilon
    (anchor.isFinite = true ∧ current.isFinite = true ∧ InTurn anchor.longitude ∧ InTurn current.longitude ∧
      defaultEpsilon.isFinite = true ∧ 0 < defaultEpsilon) ∧
      (r == spanning current anchor true defaultEpsilon) = true ∧ defaultEpsilon ≤ r.height ∧
      2 * defaultEpsilon ≤ r.widenedWidth true := by
  intro anchor current r
  have ha : anchor.isFinite = true := by decide
  have hc : current.isFinite = true := by decide
  have ta : InTurn anchor.longitude := ⟨by decide, by decide +kernel, by decide +kernel⟩
  have tc : InTurn current.longitude := ⟨by decide, by decide +kernel, by decide +kernel⟩
  have fε : defaultEpsilon.isFinite = true := by decide
  have h0 : 0 < defaultEpsilon := by decide +kernel
  obtain ⟨exchanged, ⟨raw, corners, -, -, -, widened⟩, high⟩ := spanning_guarded true ha hc ta tc fε h0
  have west : IsLarger raw.west 3.14159265 (-3.14159265) := corners.west
  have east : IsSmaller raw.east 3.14159265 (-3.14159265) := corners.east
  have west_eq : raw.west = 3.14159265 :=
    west.eq_or_eq.resolve_right fun h => absurd (h ▸ west.left_le) (by decide +kernel)
  have east_eq : raw.east = -3.14159265 :=
    east.eq_or_eq.resolve_left fun h => absurd (h ▸ east.le_right) (by decide +kernel)
  have narrow : ¬defaultEpsilon ≤ raw.guardedWidth true := by
    rw [guardedWidth, if_pos rfl, west_eq, east_eq]
    decide +kernel
  rw [if_neg narrow] at widened
  exact ⟨⟨ha, hc, ta, tc, fε, h0⟩, exchanged, high, widened⟩

end GlobeDrag.Rectangle
