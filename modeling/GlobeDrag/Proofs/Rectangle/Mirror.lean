import GlobeDrag.Proofs.DateLine.Mirror
import GlobeDrag.Proofs.Extent
import GlobeDrag.Proofs.Rectangle.Reach

/-!
# Boxes with east and west exchanged

The box between two corners and the box between their mirror images are mirror images of each other, unless one of them is thin: a thin
box is widened on its eastern side only. Storing a box keeps the exchange, up to the sign of zero.

Main statements: `Rectangle.spanning_mirror` and `Extent.ofRectangle_mirror`.
-/

namespace GlobeDrag

open Binary64

/-! ## Doubles -/

namespace DateLine

/-- The doubles with their negation; the comparisons fail on both sides where a number is missing. -/
instance : Mirrors Float where
  asymm x y h h' := by
    rw [lt_iff_number] at h h'
    exact h.2.2.asymm h'.2.2
  neg_lt_neg x y := by
    simp only [lt_iff_number, isNaN_neg, value_neg, neg_lt_neg_iff]
    exact and_left_comm
  neg_le_neg x y := by
    simp only [le_iff_number, isNaN_neg, value_neg, neg_le_neg_iff]
    exact and_left_comm
  zero_lt_neg x := by
    simp only [lt_iff_number, isNaN_neg, value_neg, value_zero, neg_pos]
    exact and_left_comm
  neg_lt_zero x := by
    simp only [lt_iff_number, isNaN_neg, value_neg, value_zero, Left.neg_neg_iff]
    exact and_left_comm
  neg_beq_zero x := by
    rw [Bool.eq_iff_iff]
    simp only [beq_iff_number, isNaN_neg, value_neg, value_zero, neg_eq_zero]

/-- Opposite doubles count as equal as the doubles do. -/
theorem neg_beq_neg (x y : Float) : (-x == -y) = (x == y) := by
  rw [Bool.eq_iff_iff]
  simp only [beq_iff_number, isNaN_neg, value_neg, neg_inj]

variable {α : Type} [Neg α] [OfNat α 0] [BEq α] [LT α] [LE α] [DecidableLE α] [Mirrors α]

theorem lesser_neg (a b : α) : lesser (-a) (-b) = -greater a b := by
  simp only [lesser, greater, Mirrors.neg_le_neg, apply_ite (-· : α → α)]

theorem greater_neg (a b : α) : greater (-a) (-b) = -lesser a b := by
  simp only [lesser, greater, Mirrors.neg_le_neg, apply_ite (-· : α → α)]

/-- The bounds between negated longitudes are negated and change places. -/
theorem bounds_neg (crossing : Bool) (a b : α) :
    bounds crossing (-a) (-b) = (-(bounds crossing a b).2, -(bounds crossing a b).1) := by
  cases crossing with
  | true => exact congrArg₂ Prod.mk (lesser_neg a b) (greater_neg a b)
  | false => exact congrArg₂ Prod.mk (greater_neg a b) (lesser_neg a b)

end DateLine

open DateLine

/-! ## Points and boxes -/

/-- The point on the other side of the prime meridian, at the same distance. -/
def Point.mirror (p : Point) : Point := ⟨p.latitude, -p.longitude⟩

/-- Mirror images count as equal exactly where the points do. -/
theorem Point.mirror_beq_mirror (p q : Point) : (p.mirror == q.mirror) = (p == q) :=
  congrArg (p.latitude == q.latitude && ·) (neg_beq_neg _ _)

namespace Rectangle

/-- The box on the other side of the prime meridian. -/
def mirror (r : Rectangle) : Rectangle := ⟨r.north, r.south, -r.west, -r.east⟩

@[simp] theorem isFinite_mirror (r : Rectangle) : r.mirror.isFinite = r.isFinite := by
  simp only [isFinite, mirror, isFinite_neg, Bool.and_assoc, Bool.and_comm r.west.isFinite]

variable {anchor current : Point} {crossing : Bool} {epsilon : Float}

/-- The box between two points has a span below `epsilon`. -/
def IsThin (anchor current : Point) (crossing : Bool) (epsilon : Float) : Prop :=
  IsLow anchor current epsilon ∨ IsNarrow anchor current crossing epsilon

instance : Decidable (IsThin anchor current crossing epsilon) :=
  inferInstanceAs (Decidable (_ ∨ _))

/-- The bounds of a box that is not thin are at its corners. -/
theorem spanning_of_not_isThin (h : ¬IsThin anchor current crossing epsilon) :
    spanning anchor current crossing epsilon =
      ⟨greater anchor.latitude current.latitude, lesser anchor.latitude current.latitude,
        (bounds crossing anchor.longitude current.longitude).1, (bounds crossing anchor.longitude current.longitude).2⟩ := by
  obtain ⟨low, narrow⟩ := not_or.1 h
  exact congrArg₂ (mk · _ · _) (if_neg low) (if_neg narrow)

/-- Corners with finite coordinates that are not close to each other span a finite box. -/
theorem isFinite_spanning (ha : anchor.isFinite = true) (hc : current.isFinite = true)
    (h : ¬IsThin anchor current crossing epsilon) : (spanning anchor current crossing epsilon).isFinite = true := by
  obtain ⟨a1, a2⟩ := isFinite_point ha
  obtain ⟨c1, c2⟩ := isFinite_point hc
  obtain ⟨fe, fw, -⟩ := value_bounds crossing a2 c2
  rw [spanning_of_not_isThin h]
  simp only [isFinite, (value_greater a1 c1).1, (value_lesser a1 c1).1, fe, fw, Bool.and_self]

/-- The box between the mirror images of two points is the mirror image of the box between the points, if neither is thin. -/
theorem spanning_mirror (h : ¬IsThin anchor current crossing epsilon) (h' : ¬IsThin anchor.mirror current.mirror crossing epsilon) :
    spanning anchor.mirror current.mirror crossing epsilon = (spanning anchor current crossing epsilon).mirror := by
  rw [spanning_of_not_isThin h, spanning_of_not_isThin h']
  simp only [Point.mirror, mirror, bounds_neg]

end Rectangle

/-! ## Stored boxes -/

namespace Extent

open Angle

/-- The extent with its eastern and western bound negated and exchanged. -/
def mirror (e : Extent) : Extent := ⟨e.north, e.south, e.west.map (-·), e.east.map (-·)⟩

variable {precision : ℕ}

/-- Storing treats both signs alike. -/
theorem isOdd_stored (hp : precision ≤ 15) : IsOdd (stored precision) :=
  (isOdd_roundTo hp).comp (isMonotone_roundTo hp) isOdd_toDegrees isMonotone_toDegrees

/-- The extent of a mirrored box is the mirrored extent of the box. Zeros of either sign count as equal here. -/
theorem ofRectangle_mirror (hp : precision ≤ 15) {r : Rectangle} (hr : r.isFinite = true) :
    (ofRectangle r.mirror precision == (ofRectangle r precision).mirror) = true := by
  have number := numbers_of_isFinite hr
  have monotone := isMonotone_stored hp
  have same {x : Float} (hx : x.isNaN = false) : (stored precision x == stored precision x) = true :=
    (beq_iff_value_eq (monotone.isNaN_eq hx) (monotone.isNaN_eq hx)).2 rfl
  have opposite {x : Float} (hx : x.isNaN = false) : (stored precision (-x) == -stored precision x) = true := by
    refine (beq_iff_value_eq (monotone.isNaN_eq ?_) ?_).2 ?_
    · rw [isNaN_neg, hx]
    · rw [isNaN_neg, monotone.isNaN_eq hx]
    · rw [value_neg, (isOdd_stored hp).value_opposite hx]
  change (stored precision r.north == stored precision r.north && (stored precision r.south == stored precision r.south &&
    (stored precision (-r.west) == -stored precision r.west && stored precision (-r.east) == -stored precision r.east))) = true
  rw [same number.north, same number.south, opposite number.west, opposite number.east]
  rfl

end Extent

end GlobeDrag
