import GlobeDrag.Proofs.Angle
import GlobeDrag.Proofs.DateLine.Across
import GlobeDrag.Proofs.Rectangle.Widen

/-!
# The box between two corners

Where the bounds of `Rectangle.spanning` lie: the southern and the western bound are at the corners, the northern and the eastern one
at the corners or beyond. In a box that wraps, widening never carries the eastern bound up to the western one.

Main statements: `spans_spanning` (the place of each bound) and `value_east_lt_value_west` (a box that wraps stays one).
-/

namespace GlobeDrag

open Binary64 DateLine

/-! ## Lesser and greater doubles -/

variable {a b : Float}

/-- Of finite doubles, the lesser one is the minimum. -/
theorem value_lesser (ha : a.isFinite = true) (hb : b.isFinite = true) :
    (lesser a b).isFinite = true ∧ value (lesser a b) = min (value a) (value b) := by
  have hle := le_iff_value_le (isNaN_of_isFinite ha) (isNaN_of_isFinite hb)
  have hself := (le_iff_value_le (isNaN_of_isFinite hb) (isNaN_of_isFinite hb)).2 le_rfl
  rw [lesser, if_pos hself]
  split
  · next h => exact ⟨ha, (min_eq_left (hle.1 h)).symm⟩
  · next h => exact ⟨hb, (min_eq_right (le_of_not_ge fun h' => h (hle.2 h'))).symm⟩

/-- The greater one is the maximum. -/
theorem value_greater (ha : a.isFinite = true) (hb : b.isFinite = true) :
    (greater a b).isFinite = true ∧ value (greater a b) = max (value a) (value b) := by
  have hle := le_iff_value_le (isNaN_of_isFinite hb) (isNaN_of_isFinite ha)
  have hself := (le_iff_value_le (isNaN_of_isFinite hb) (isNaN_of_isFinite hb)).2 le_rfl
  rw [greater, if_pos hself]
  split
  · next h => exact ⟨ha, (max_eq_left (hle.1 h)).symm⟩
  · next h => exact ⟨hb, (max_eq_right (le_of_not_ge fun h' => h (hle.2 h'))).symm⟩

/-- The lesser of two doubles does not depend on the sign of a zero. -/
theorem lesser_congr {a' : Float} (ha : a.isFinite = true) (ha' : a'.isFinite = true) (hb : b.isFinite = true)
    (hv : value a = value a') :
    (lesser a b).isFinite = true ∧ (lesser a' b).isFinite = true ∧ value (lesser a b) = value (lesser a' b) := by
  obtain ⟨h1, h2⟩ := value_lesser ha hb
  obtain ⟨h3, h4⟩ := value_lesser ha' hb
  exact ⟨h1, h3, by rw [h2, h4, hv]⟩

/-- Neither does the greater. -/
theorem greater_congr {a' : Float} (ha : a.isFinite = true) (ha' : a'.isFinite = true) (hb : b.isFinite = true)
    (hv : value a = value a') :
    (greater a b).isFinite = true ∧ (greater a' b).isFinite = true ∧ value (greater a b) = value (greater a' b) := by
  obtain ⟨h1, h2⟩ := value_greater ha hb
  obtain ⟨h3, h4⟩ := value_greater ha' hb
  exact ⟨h1, h3, by rw [h2, h4, hv]⟩

/-- The eastern and the western bound between two longitudes. -/
theorem value_bounds (crossing : Bool) (ha : a.isFinite = true) (hb : b.isFinite = true) :
    (bounds crossing a b).1.isFinite = true ∧ (bounds crossing a b).2.isFinite = true ∧
      value (bounds crossing a b).1 = (if crossing then min (value a) (value b) else max (value a) (value b)) ∧
      value (bounds crossing a b).2 = (if crossing then max (value a) (value b) else min (value a) (value b)) := by
  obtain ⟨h1, h2⟩ := value_lesser ha hb
  obtain ⟨h3, h4⟩ := value_greater ha hb
  cases crossing
  · exact ⟨h3, h1, h4, h2⟩
  · exact ⟨h1, h3, h2, h4⟩

namespace Rectangle

/-! ## Bounds of a spanned box -/

/-- The bounds of a box lie where those of the box between two corners do: on the southern and western side at the corners, on the
northern and eastern side not inside of them. -/
structure Spans (anchor current : Point) (crossing : Bool) (r : Rectangle) : Prop where
  isFinite_south : r.south.isFinite = true
  isFinite_west : r.west.isFinite = true
  isNaN_north : r.north.isNaN = false
  isNaN_east : r.east.isNaN = false
  south_eq : value r.south = min (value anchor.latitude) (value current.latitude)
  le_north : max (value anchor.latitude) (value current.latitude) ≤ value r.north
  west_eq : value r.west = if crossing then max (value anchor.longitude) (value current.longitude)
    else min (value anchor.longitude) (value current.longitude)
  le_east : (if crossing then min (value anchor.longitude) (value current.longitude)
    else max (value anchor.longitude) (value current.longitude)) ≤ value r.east

/-- Both coordinates of a finite point are finite. -/
theorem isFinite_point {p : Point} (h : p.isFinite = true) : p.latitude.isFinite = true ∧ p.longitude.isFinite = true :=
  Bool.and_eq_true_iff.1 h

variable {anchor current : Point} {crossing : Bool} {epsilon : Float} {r : Rectangle}

/-- A bound that is widened under a condition does not go down. -/
theorem le_value_ite_widen {p : Prop} [Decidable p] (low : Float) {high : Float} (hh : high.isFinite = true)
    (he : epsilon.isFinite = true) (h0 : 0 ≤ value epsilon) :
    (if p then widen low high epsilon else high).isNaN = false ∧
      value high ≤ value (if p then widen low high epsilon else high) := by
  split
  · exact le_value_widen low hh he h0
  · exact ⟨isNaN_of_isFinite hh, le_rfl⟩

/-- The box between two finite corners has its bounds where they belong. -/
theorem spans_spanning (crossing : Bool) (ha : anchor.isFinite = true) (hc : current.isFinite = true)
    (he : epsilon.isFinite = true) (h0 : 0 ≤ value epsilon) :
    Spans anchor current crossing (spanning anchor current crossing epsilon) := by
  obtain ⟨ha1, ha2⟩ := isFinite_point ha
  obtain ⟨hc1, hc2⟩ := isFinite_point hc
  obtain ⟨s1, s2⟩ := value_lesser ha1 hc1
  obtain ⟨n1, n2⟩ := value_greater ha1 hc1
  obtain ⟨e1, w1, e2, w2⟩ := value_bounds crossing ha2 hc2
  obtain ⟨n3, n4⟩ := le_value_ite_widen (p := greater anchor.latitude current.latitude -
    lesser anchor.latitude current.latitude < epsilon) (lesser anchor.latitude current.latitude) n1 he h0
  obtain ⟨e3, e4⟩ := le_value_ite_widen (p := (bounds crossing anchor.longitude current.longitude).1 +
    (if crossing then Angle.fullTurn else 0) - (bounds crossing anchor.longitude current.longitude).2 < epsilon)
    ((bounds crossing anchor.longitude current.longitude).2 - (if crossing then Angle.fullTurn else 0)) e1 he h0
  exact ⟨s1, w1, n3, e3, s2, n2 ▸ n4, w2, e2 ▸ e4⟩

/-- A box is not upside down. -/
theorem Spans.south_le_north (h : Spans anchor current crossing r) : value r.south ≤ value r.north := by
  rw [h.south_eq]
  exact min_le_max.trans h.le_north

/-- Unless it wraps, a box has its western bound in the west. -/
theorem Spans.west_le_east (h : Spans anchor current false r) : value r.west ≤ value r.east := by
  have hw := h.west_eq
  have he := h.le_east
  simp only [Bool.false_eq_true, if_false] at hw he
  rw [hw]
  exact min_le_max.trans he

open Angle

/-- A box between two points of the turn stays off the date line on the outer side of both bounds. -/
theorem Spans.mem_turn (h : Spans anchor current crossing r) (ha : InTurn anchor.longitude) (hc : InTurn current.longitude) :
    -value halfTurn ≤ value r.east ∧ value r.west ≤ value halfTurn := by
  have he := h.le_east
  have hw := h.west_eq
  have h1 := ha.lt_value
  have h2 := hc.lt_value
  have h3 := ha.value_le
  have h4 := hc.value_le
  cases crossing with
  | true =>
    exact ⟨(le_min h1.le h2.le).trans he, hw.trans_le (max_le h3 h4)⟩
  | false =>
    exact ⟨(h1.le.trans (le_max_left _ _)).trans he, hw.trans_le ((min_le_left _ _).trans h3)⟩

/-! ## Boxes that wrap -/

/-- A gap of less than one radian over the date line leaves both bounds more than two radians away from the prime meridian. -/
theorem far_of_gap_lt {e w : Float} (he : -value halfTurn ≤ value e) (he0 : value e ≤ 0) (fe : e.isFinite = true)
    (hw : value w ≤ value halfTurn) (fw : w.isFinite = true) (h1 : value epsilon ≤ 1) (gap : e + fullTurn - w < epsilon) :
    value e ≤ -2 ∧ 2 ≤ value w := by
  have lower := value_halfTurn_gt
  have upper := value_halfTurn_lt
  have full := value_fullTurn
  have cut : (4.25 : Float).isFinite = true ∧ value 4.25 = 17 / 4 := by decide +kernel
  have hs := isNearest_add fe isFinite_fullTurn
  obtain ⟨fs, -, hs', -⟩ := hs.of_mem_Icc isFinite_halfTurn isFinite_fullTurn (by linarith) (by linarith)
  have hg := isNearest_sub fs fw
  have hlt := (lt_iff_value_lt hg.isNaN_eq (isNaN_of_lt gap).2).1 gap
  have hsw : value (e + fullTurn) - value w < 1 := by
    by_contra hle
    have := hg.le_value isFinite_one (by rw [value_one]; exact not_lt.1 hle)
    rw [value_one] at this
    linarith
  have hes : value e + value fullTurn < 17 / 4 := by
    by_contra hle
    have := hs.le_value cut.1 (by rw [cut.2]; exact not_lt.1 hle)
    rw [cut.2] at this
    linarith
  exact ⟨by linarith, by linarith⟩

/-- From two radians west of the prime meridian, widening by up to two radians ends at the prime meridian at the latest. -/
theorem value_widen_le_zero {e w : Float} (he : -value halfTurn ≤ value e) (he2 : value e ≤ -2) (fe : e.isFinite = true)
    (hw2 : 2 ≤ value w) (hw : value w ≤ value halfTurn) (fw : w.isFinite = true) (fε : epsilon.isFinite = true)
    (h0 : 0 ≤ value epsilon) (h1 : value epsilon ≤ 1) : value (widen (w - fullTurn) e epsilon) ≤ 0 := by
  have lower := value_halfTurn_gt
  have full := value_fullTurn
  have two : (2 : Float).isFinite = true ∧ value 2 = 2 := value_ofNat 2 (by decide)
  obtain ⟨ft, -, ht0, ht2⟩ := (isNearest_mul two.1 fε).of_mem_Icc isFinite_zero two.1
    (by rw [value_zero, two.2]; linarith) (by rw [two.2]; linarith)
  obtain ⟨fl, -, -, hl⟩ := (isNearest_sub fw isFinite_fullTurn).of_mem_Icc isFinite_neg_fullTurn isFinite_neg_halfTurn
    (by rw [value_neg]; linarith) (by rw [value_neg]; linarith)
  rw [value_zero, two.2] at *
  rw [value_neg] at hl
  obtain ⟨fst, -, -, hst⟩ := (isNearest_add fe ft).of_mem_Icc isFinite_neg_halfTurn isFinite_zero
    (by rw [value_neg]; linarith) (by rw [value_zero]; linarith)
  have hd := isNearest_sub isFinite_zero fl
  have far : ¬(0 : Float) - (w - fullTurn) < 2 * epsilon := by
    rw [lt_iff_value_lt hd.isNaN_eq (isNaN_of_isFinite ft)]
    have := hd.le_value isFinite_halfTurn (by rw [value_zero]; linarith)
    linarith
  have := value_climb_le fl isFinite_zero far fst hst
  rwa [value_zero] at this

/-- A box that wraps stays one when it is widened by no more than a radian. -/
theorem value_east_lt_value_west (ha : InTurn anchor.longitude) (hc : InTurn current.longitude)
    (across : Across (value anchor.longitude) (value current.longitude)) (fε : epsilon.isFinite = true)
    (h0 : 0 ≤ value epsilon) (h1 : value epsilon ≤ 1) :
    value (spanning anchor current true epsilon).east < value (spanning anchor current true epsilon).west := by
  obtain ⟨fe, fw, ve, vw⟩ := value_bounds true ha.isFinite hc.isFinite
  simp only [if_true] at ve vw
  change value (if (bounds true anchor.longitude current.longitude).1 + fullTurn -
    (bounds true anchor.longitude current.longitude).2 < epsilon then _ else _) <
      value (bounds true anchor.longitude current.longitude).2
  have he : -value halfTurn ≤ value (bounds true anchor.longitude current.longitude).1 := by
    rw [ve]
    exact le_min ha.lt_value.le hc.lt_value.le
  have hw : value (bounds true anchor.longitude current.longitude).2 ≤ value halfTurn := by
    rw [vw]
    exact max_le ha.value_le hc.value_le
  have he0 : value (bounds true anchor.longitude current.longitude).1 ≤ 0 := by
    rw [ve, min_le_iff]
    rcases across with ⟨-, h⟩ | ⟨h, -⟩
    · exact Or.inr h
    · exact Or.inl h.le
  have hlt : value (bounds true anchor.longitude current.longitude).1 <
      value (bounds true anchor.longitude current.longitude).2 := by
    rw [ve, vw]
    rcases across with ⟨h, h'⟩ | ⟨h, h'⟩
    · exact (min_le_right _ _).trans_lt ((h'.trans_lt h).trans_le (le_max_left _ _))
    · exact (min_le_left _ _).trans_lt ((h.trans_le h').trans_le (le_max_right _ _))
  split
  · next gap =>
    obtain ⟨he2, hw2⟩ := far_of_gap_lt he he0 fe hw fw h1 gap
    exact (value_widen_le_zero he he2 fe hw2 hw fw fε h0 h1).trans_lt (by linarith)
  · exact hlt

/-! ## Order -/

/-- The bounds of a box are in order: south below north, and the eastern bound below the western one exactly if the box is marked as
wrapping. -/
structure Ordered (r : Rectangle) (crossing : Bool) : Prop where
  south_le_north : r.south ≤ r.north
  crossesDateLine_eq : r.crossesDateLine = crossing
  east_lt_west : crossing = true → r.east < r.west
  west_le_east : crossing = false → r.west ≤ r.east

/-- A box that is marked as wrapping only across the prime meridian is in order, also when it is widened by up to a radian. -/
theorem ordered_spanning (ha : anchor.isFinite = true) (hc : current.isFinite = true) (ta : InTurn anchor.longitude)
    (tc : InTurn current.longitude) (across : crossing = true → Across anchor.longitude current.longitude)
    (fε : epsilon.isFinite = true) (h0 : 0 ≤ value epsilon) (h1 : value epsilon ≤ 1) :
    (spanning anchor current crossing epsilon).Ordered crossing := by
  have spans := spans_spanning crossing ha hc fε h0
  have hsn := (le_iff_value_le (isNaN_of_isFinite spans.isFinite_south) spans.isNaN_north).2 spans.south_le_north
  have hlt := lt_iff_value_lt spans.isNaN_east (isNaN_of_isFinite spans.isFinite_west)
  have hle := le_iff_value_le (isNaN_of_isFinite spans.isFinite_west) spans.isNaN_east
  cases crossing with
  | true =>
    have ha := (across_value (isNaN_of_isFinite ta.isFinite) (isNaN_of_isFinite tc.isFinite)).2 (across rfl)
    have h := hlt.2 (value_east_lt_value_west ta tc ha fε h0 h1)
    exact ⟨hsn, decide_eq_true h, fun _ => h, nofun⟩
  | false =>
    have h := spans.west_le_east
    exact ⟨hsn, decide_eq_false fun h' => not_lt.2 h (hlt.1 h'), nofun, fun _ => hle.2 h⟩

end Rectangle

end GlobeDrag
