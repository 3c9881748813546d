import GlobeDrag.Proofs.Rectangle.Reach

/-!
# Boxes that are not finite

Widening can carry a bound past the largest double, and the box is then not given out. In the east this takes an angle whose double
overflows. In the north it also happens at latitudes close to the largest double, where a climb may find no double that is far enough.

Main statements: `isFinite_spanning_iff` (which boxes are finite) and `not_overflows_of_onGlobe` (on the globe only the angle decides).
-/

namespace GlobeDrag.Rectangle

open Angle Binary64 DateLine

variable {anchor anchor' current : Point} {crossing : Bool} {epsilon : Float}

/-- The box between two points is widened past the largest double: twice the angle overflows, or the box is low and its northern bound
overflows when it is pushed, or even the largest double is too close to its southern bound. -/
def Overflows (anchor current : Point) (epsilon : Float) : Prop :=
  (2 * epsilon).isFinite = false ∨
    IsLow anchor current epsilon ∧
      ((greater anchor.latitude current.latitude + 2 * epsilon).isFinite = false ∨
        largest - lesser anchor.latitude current.latitude < 2 * epsilon)

instance : Decidable (Overflows anchor current epsilon) :=
  inferInstanceAs (Decidable (_ ∨ _))

/-! ## The eastern bound -/

/-- An angle whose double overflows exceeds the width of any box. -/
theorem isNarrow_of_infinite (crossing : Bool) (ha : InTurn anchor.longitude) (hc : InTurn current.longitude)
    (fε : epsilon.isFinite = true) (h0 : 0 ≤ value epsilon) (ht : (2 * epsilon).isFinite = false) :
    IsNarrow anchor current crossing epsilon := by
  obtain ⟨⟨fw, le_west, -⟩, -, -, fe, le_east, east_le⟩ := longitudes_mem crossing ha hc
  obtain ⟨fwrap, wrap_nonneg, wrap_le⟩ := wrap_mem crossing
  have two : (2 : Float).isFinite = true ∧ value 2 = 2 := value_ofNat 2 (by decide)
  have twenty : (20 : Float).isFinite = true ∧ value 20 = 20 := value_ofNat 20 (by decide)
  have forty : (40 : Float).isFinite = true ∧ value 40 = 40 := value_ofNat 40 (by decide)
  have upper := value_halfTurn_lt
  have wide : value 20 < value epsilon := by
    by_contra hle
    rw [twenty.2, not_lt] at hle
    obtain ⟨small, -⟩ := (isNearest_mul two.1 fε).of_mem_Icc isFinite_zero forty.1
      (by rw [value_zero, two.2]; linarith) (by rw [two.2, forty.2]; linarith)
    rw [ht] at small
    cases small
  obtain ⟨fs, -, -, hs⟩ := (isNearest_add fe fwrap).of_mem_Icc isFinite_neg_halfTurn (show (10 : Float).isFinite = true by decide)
    (by rw [value_neg]; linarith) (by rw [value_10]; linarith)
  rw [value_10] at hs
  have span := isNearest_sub fs fw
  have most := span.value_le twenty.1 (by rw [twenty.2]; linarith)
  exact (lt_iff_value_lt span.isNaN_eq (isNaN_of_isFinite fε)).2 (most.trans_lt wide)

/-- The eastern bound of a box between longitudes in the turn is finite exactly if twice the angle is. -/
theorem isFinite_east_iff (ha : InTurn anchor.longitude) (hc : InTurn current.longitude) (fε : epsilon.isFinite = true)
    (h0 : 0 ≤ value epsilon) :
    (spanning anchor current crossing epsilon).east.isFinite = true ↔ (2 * epsilon).isFinite = true := by
  obtain ⟨⟨fw, le_west, -⟩, fl, low_le, fe, le_east, east_le⟩ := longitudes_mem crossing ha hc
  obtain ⟨fwrap, -, wrap_le⟩ := wrap_mem crossing
  have upper := value_halfTurn_lt
  have le_low := (isNearest_sub fw fwrap).le_value (show (-10 : Float).isFinite = true by decide) (by rw [value_neg_10]; linarith)
  rw [value_neg_10] at le_low
  have pushed := isFinite_widen_iff_of_few_turns fl fe le_low (by linarith) (by linarith) (by linarith) fε h0
  change (if IsNarrow anchor current crossing epsilon then _ else _ : Float).isFinite = true ↔ _
  split
  · exact pushed
  · next wide =>
    refine iff_of_true fe ?_
    by_contra ht
    exact wide (isNarrow_of_infinite crossing ha hc fε h0 (Bool.eq_false_iff.2 ht))

/-! ## Finite boxes -/

/-- The northern bound of a box is finite unless the box is low and its widening ends beyond the largest double. -/
theorem isFinite_north_iff (ha : anchor.isFinite = true) (hc : current.isFinite = true) (fε : epsilon.isFinite = true)
    (h0 : 0 ≤ value epsilon) :
    (spanning anchor current crossing epsilon).north.isFinite = true ↔
      ¬(IsLow anchor current epsilon ∧
        ((greater anchor.latitude current.latitude + 2 * epsilon).isFinite = false ∨
          largest - lesser anchor.latitude current.latitude < 2 * epsilon)) := by
  obtain ⟨fn, -⟩ := value_greater (isFinite_point ha).1 (isFinite_point hc).1
  obtain ⟨fs, -⟩ := value_lesser (isFinite_point ha).1 (isFinite_point hc).1
  change (if IsLow anchor current epsilon then _ else _ : Float).isFinite = true ↔ _
  split
  · rw [isFinite_widen_iff fs fn fε h0, ← Bool.not_eq_true]
    tauto
  · next high => exact iff_of_true fn fun h => high h.1

/-- A box between points with longitudes in the turn is finite exactly if its widening does not overflow. -/
theorem isFinite_spanning_iff (ha : anchor.isFinite = true) (hc : current.isFinite = true) (ta : InTurn anchor.longitude)
    (tc : InTurn current.longitude) (fε : epsilon.isFinite = true) (h0 : 0 ≤ value epsilon) :
    (spanning anchor current crossing epsilon).isFinite = true ↔ ¬Overflows anchor current epsilon := by
  have spans := spans_spanning crossing ha hc fε h0
  rw [isFinite, spans.isFinite_south, spans.isFinite_west, Bool.and_true, Bool.and_true, Bool.and_eq_true_iff,
    isFinite_north_iff ha hc fε h0, isFinite_east_iff ta tc fε h0, Overflows, not_or, Bool.not_eq_false, and_comm]

/-- Whether a box overflows does not depend on the sign of a zero in the anchor. -/
theorem Overflows.congr (ha : anchor.latitude.isFinite = true) (ha' : anchor'.latitude.isFinite = true)
    (hc : current.latitude.isFinite = true) (hv : value anchor.latitude = value anchor'.latitude)
    (h : Overflows anchor current epsilon) : Overflows anchor' current epsilon := by
  obtain ⟨fl, fl', south⟩ := lesser_congr ha ha' hc hv
  obtain ⟨fg, fg', north⟩ := greater_congr ha ha' hc hv
  refine h.imp id ?_
  rintro ⟨low, beyond⟩
  refine ⟨sub_lt_congr fl fl' fg fg' south north low, ?_⟩
  rcases beyond with infinite | close
  · left
    rw [Bool.eq_false_iff] at infinite ⊢
    exact fun finite => infinite (isFinite_add_congr fg' fg north.symm finite)
  · exact Or.inr (sub_lt_congr fl fl' isFinite_largest isFinite_largest south rfl close)

/-- On the globe only the angle can make a box overflow. -/
theorem not_overflows_of_onGlobe (ha : anchor.OnGlobe) (hc : current.OnGlobe) (fε : epsilon.isFinite = true) (h0 : 0 ≤ value epsilon)
    (ht : (2 * epsilon).isFinite = true) : ¬Overflows anchor current epsilon := by
  obtain ⟨⟨fs, le_south⟩, south_le_north, fn, north_le⟩ := latitudes_mem ha hc
  have quarter := value_quarterTurn
  have upper := value_halfTurn_lt
  have pushed := (isFinite_widen_iff_of_few_turns fs fn (by linarith) (by linarith) (by linarith) (by linarith) fε h0).2 ht
  rw [isFinite_widen_iff fs fn fε h0] at pushed
  rintro (infinite | ⟨-, infinite | close⟩)
  · exact absurd ht (Bool.eq_false_iff.1 infinite)
  · exact absurd pushed.1 (Bool.eq_false_iff.1 infinite)
  · exact pushed.2 close

end GlobeDrag.Rectangle
