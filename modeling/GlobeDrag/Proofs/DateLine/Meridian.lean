import GlobeDrag.Proofs.DateLine.Across
import GlobeDrag.Proofs.DateLine.Mirror
import GlobeDrag.Tracker

/-!
# Samples on the prime meridian

A longitude of zero has no side, and the move after it is handled like the first of a drag. A drag that takes a sample on the prime
meridian nevertheless goes on as if the sample had missed the meridian by a little. The one exception is a pointer that comes up to the
meridian on the far side of a box that wraps and turns back there: the sample on the meridian ends the wrapping, a sample beside it does
not.

Main statements: `Course.crossing_over_zero` and `Course.crossing_over_nearby_iff` (the mark after the two ways) and `Drag.over_meridian`,
which compares them.
-/

namespace GlobeDrag

namespace DateLine

/-- The pointer, last seen at `last`, comes up to the prime meridian on the far side of a box that wraps, and goes back to `next`. -/
@[mk_iff]
structure Course.TurnsBack {α : Type} [OfNat α 0] [LT α] [DecidableLT α] (anchor last next : α) (c : Course α) : Prop where
  crossing : c.crossing = true
  far : Side.of last ≠ Side.of anchor
  back : Side.of next = Side.of last

/-- On the way over a longitude of zero the box ceases to wrap. -/
theorem Course.crossing_over_zero {α : Type} [OfNat α 0] [BEq α] [LT α] [LE α] [DecidableLT α] [DecidableLE α] {zero : α}
    (h : (zero == 0) = true) (anchor next : α) (c : Course α) : ((c.step anchor zero).step anchor next).crossing = false := by
  rw [step_of_zero (last_step anchor c zero) h]

/-! ## Exact longitudes -/

section Sides

variable {K : Type} [LinearOrder K] [Zero K] {x anchor last next : K} {c : Course K} {s : Side}

theorem Side.of_eq_east_iff : Side.of x = some .east ↔ 0 < x := by
  refine ⟨fun h => ?_, Side.of_pos⟩
  by_contra h0
  rw [Side.of, if_neg h0] at h
  split at h <;> cases h

theorem Side.of_eq_west_iff : Side.of x = some .west ↔ x < 0 := by
  refine ⟨fun h => ?_, Side.of_neg⟩
  by_contra h0
  rw [Side.of, if_neg h0] at h
  split at h <;> cases h

theorem Side.ne_zero_of_eq (h : Side.of x = some s) : x ≠ 0 := by
  rintro rfl
  rw [Side.of_zero] at h
  cases h

namespace Course

/-- A move on the far side keeps the mark. -/
theorem crossing_step_of_far (hlast : c.last = some last) (hl : Side.of last = some s) (hx : Side.of x = some s)
    (far : Side.of anchor ≠ some s) : (c.step anchor x).crossing = c.crossing := by
  have hk : Move.classify last x anchor = .unclassified := by
    rw [Move.classify, hl, hx]
    rcases ha : Side.of anchor with _ | (_ | _) <;> cases s <;> first | rfl | exact absurd ha far
  rw [step_of_move hlast (beq_false_of_ne (Side.ne_zero_of_eq hl)), hk]
  rfl

/-- On the eastern side a move that comes closer to the prime meridian than the anchor and the last longitude heads west. -/
theorem step_toward_meridian (hlast : c.last = some last) (hx : 0 < x) (hxl : x < last) (hxa : x < anchor) :
    c.step anchor x = ⟨some x, .west, false⟩ := by
  have hk : Move.classify last x anchor = .sameSide := by
    rw [Move.classify, Side.of_pos (hx.trans hxl), Side.of_pos hx, Side.of_pos (hx.trans hxa)]
    rfl
  have west : c.heading.track last x anchor = .west := by
    rw [Heading.track, if_pos hxl, if_neg fun h => not_lt.2 h.2 hxa]
  rw [step_of_move hlast (beq_false_of_ne (hx.trans hxl).ne'), hk, headingAfter, west]
  rfl

/-- Heading west, the pointer leaves the eastern side over the prime meridian. -/
theorem crossing_over_nearby_of_east (hlast : c.last = some last) (hx : 0 < x) (hxl : x < last) (hxa : x < anchor) :
    ((c.step anchor x).step anchor next).crossing = false := by
  rw [step_toward_meridian hlast hx hxl hxa, step_of_move rfl (beq_false_of_ne hx.ne'), Move.classify, Side.of_pos hx,
    Side.of_pos (hx.trans hxa)]
  rcases Side.of next with _ | (_ | _) <;> rfl

end Course

end Sides

namespace Course

variable {K : Type} [Field K] [LinearOrder K] [IsStrictOrderedRing K] {anchor last x next : K} {c : Course K} {s : Side}

/-- On either side of the prime meridian: after a move that stays on the side of the anchor and comes closer to the meridian, the box
does not wrap wherever the next one leads. -/
theorem crossing_over_nearby_of_near (hlast : c.last = some last) (hl : Side.of last = some s) (hx : Side.of x = some s)
    (ha : Side.of anchor = some s) (hxl : |x| < |last|) (hxa : |x| < |anchor|) :
    ((c.step anchor x).step anchor next).crossing = false := by
  cases s with
  | east =>
    rw [Side.of_eq_east_iff] at hl hx ha
    rw [abs_of_pos hx, abs_of_pos hl] at hxl
    rw [abs_of_pos hx, abs_of_pos ha] at hxa
    exact crossing_over_nearby_of_east hlast hx hxl hxa
  | west =>
    rw [Side.of_eq_west_iff] at hl hx ha
    rw [abs_of_neg hx, abs_of_neg hl] at hxl
    rw [abs_of_neg hx, abs_of_neg ha] at hxa
    have mirrored : c.mirror.last = some (-last) := by rw [mirror, hlast]; rfl
    have h : ((c.mirror.step (-anchor) (-x)).step (-anchor) (-next)).crossing = false :=
      crossing_over_nearby_of_east mirrored (neg_pos.2 hx) hxl hxa
    rwa [← mirror_step, ← mirror_step] at h

/-- On the way over a longitude beside zero the box wraps exactly if the pointer turns back. -/
theorem crossing_over_nearby_iff (hlast : c.last = some last) (hside : Side.of x = Side.of last)
    (close : |x| < min (min |last| |next|) |anchor|) :
    ((c.step anchor x).step anchor next).crossing = true ↔ c.TurnsBack anchor last next := by
  obtain ⟨h, hxa⟩ := lt_min_iff.1 close
  obtain ⟨hxl, hxn⟩ := lt_min_iff.1 h
  have sided {y : K} (h : |x| < |y|) : ∃ s, Side.of y = some s := Side.exists_of_ne (abs_pos.1 ((abs_nonneg x).trans_lt h))
  obtain ⟨s, hl⟩ := sided hxl
  obtain ⟨n, hn⟩ := sided hxn
  obtain ⟨a, ha⟩ := sided hxa
  have hx : Side.of x = some s := hside.trans hl
  by_cases near : a = s
  · subst near
    rw [crossing_over_nearby_of_near hlast hl hx ha hxl hxa]
    exact iff_of_false nofun fun h => h.far (hl.trans ha.symm)
  · have far : Side.of anchor ≠ some s := by simpa [ha] using near
    by_cases back : n = s
    · subst back
      rw [crossing_step_of_far (last_step ..) hx hn far, crossing_step_of_far hlast hl hx far]
      exact ⟨fun h => ⟨h, fun he => far (he.symm.trans hl), hn.trans hl.symm⟩, TurnsBack.crossing⟩
    · have comes_over : a = n := by
        cases a <;> cases n <;> cases s <;> first | rfl | exact absurd rfl near | exact absurd rfl back
      rw [crossing_step_of_side ha (comes_over ▸ hn)]
      refine iff_of_false nofun fun h => back ?_
      exact Option.some.inj (hn.symm.trans (h.back.trans hl))

end Course

/-! ## Doubles -/

open Binary64

/-- A double with a value other than zero is a number. -/
theorem isNaN_of_value_ne_zero {x : Float} (h : value x ≠ 0) : x.isNaN = false := by
  change x.toModel.unpack.isNaN = false
  cases hu : x.toModel.unpack with
  | notANumber => exact absurd (by rw [value, hu]; rfl) h
  | _ => rfl

/-- What has a side is a number. -/
theorem isNaN_of_side {x : Float} {s : Side} (h : Side.of x = some s) : x.isNaN = false := by
  rw [Side.of] at h
  split at h
  · next h0 => exact (isNaN_of_lt h0).2
  · split at h
    · next h0 => exact (isNaN_of_lt h0).1
    · cases h

namespace Course

variable {anchor last x next : Float} {c : Course Float}

/-- On doubles the same is decided as on their values. -/
theorem crossing_over_nearby_double_iff (hlast : c.last = some last) (hside : Side.of x = Side.of last)
    (close : |value x| < min (min |value last| |value next|) |value anchor|) :
    ((c.step anchor x).step anchor next).crossing = true ↔ c.TurnsBack anchor last next := by
  obtain ⟨h, hxa⟩ := lt_min_iff.1 close
  obtain ⟨hxl, hxn⟩ := lt_min_iff.1 h
  have nonzero {y : Float} (h : |value x| < |value y|) : value y ≠ 0 := abs_pos.1 ((abs_nonneg _).trans_lt h)
  have nl := isNaN_of_value_ne_zero (nonzero hxl)
  have nn := isNaN_of_value_ne_zero (nonzero hxn)
  have na := isNaN_of_value_ne_zero (nonzero hxa)
  obtain ⟨s, hs⟩ := Side.exists_of_ne (nonzero hxl)
  rw [Side.of_value nl] at hs
  have nx := isNaN_of_side (hside.trans hs)
  have first := exact_step na (fun l hl => by rwa [← Option.some.inj (hlast.symm.trans hl)]) nx (c := c)
  have second := exact_step na (fun l hl => by rwa [← Option.some.inj ((last_step ..).symm.trans hl)]) nn (c := c.step anchor x)
  have exactly : ((c.exact.step (value anchor) (value x)).step (value anchor) (value next)).crossing = true ↔
      c.exact.TurnsBack (value anchor) (value last) (value next) :=
    crossing_over_nearby_iff (by rw [exact, hlast]; rfl) (by rw [Side.of_value nx, Side.of_value nl, hside]) close
  rw [← first, ← second, turnsBack_iff, Side.of_value nl, Side.of_value na, Side.of_value nn] at exactly
  rw [turnsBack_iff]
  exact exactly

end Course

end DateLine

open Binary64 DateLine

namespace Drag

/-- A sample on the prime meridian, and one beside it that is closer to it than the anchor and the longitudes before and after, on the side
of the one before: the box for the next point is the same, except where the pointer turns back on the far side of a box that wraps. Then the
sample on the meridian ends the wrapping, and the one beside it does not. -/
theorem over_meridian (d : Drag) {last : Float} {meridian nearby next : Point} (hlast : d.course.last = some last)
    (onMeridian : (meridian.longitude == 0) = true) (side : Side.of nearby.longitude = Side.of last)
    (close : |value nearby.longitude| < min (min |value last| |value next.longitude|) |value d.anchor.longitude|) :
    let onto := (d.step meridian).step next
    let beside := (d.step nearby).step next
    (d.course.TurnsBack d.anchor.longitude last next.longitude → onto.course.crossing = false ∧ beside.course.crossing = true) ∧
    (¬d.course.TurnsBack d.anchor.longitude last next.longitude →
      onto.course.crossing = beside.course.crossing ∧ ∀ epsilon, onto.box next epsilon = beside.box next epsilon) := by
  intro onto beside
  have honto : onto.course.crossing = false := Course.crossing_over_zero onMeridian d.anchor.longitude next.longitude d.course
  have hbeside : beside.course.crossing = true ↔ d.course.TurnsBack d.anchor.longitude last next.longitude :=
    Course.crossing_over_nearby_double_iff hlast side close
  constructor
  · intro back
    exact ⟨honto, hbeside.2 back⟩
  · intro onward
    have same : onto.course.crossing = beside.course.crossing := by
      rw [honto, eq_comm, Bool.eq_false_iff]
      exact mt hbeside.1 onward
    refine ⟨same, fun epsilon => ?_⟩
    exact congrArg (Rectangle.spanning d.anchor next · epsilon) same

/-- A drag over the date line that comes back to the side of its anchor over the prime meridian. -/
theorem over_meridian_return :
    let d := [Point.mk 0.1 3.1, ⟨0.1, -3.1⟩, ⟨0.1, -1⟩].foldl step (.start ⟨0, 3⟩)
    d.course.last = some (-1) ∧ Side.of (-1e-9 : Float) = Side.of (-1 : Float) ∧
      |value (-1e-9)| < min (min |value (-1)| |value 2.9|) |value 3| ∧
      ((d.step ⟨0.1, 0⟩).step ⟨0.1, 2.9⟩).course.crossing = ((d.step ⟨0.1, -1e-9⟩).step ⟨0.1, 2.9⟩).course.crossing := by
  intro d
  have close : |value (-1e-9)| < min (min |value (-1)| |value 2.9|) |value 3| := by decide +kernel
  have onward : ¬d.course.TurnsBack d.anchor.longitude (-1) 2.9 := fun h => absurd h.back (by decide +kernel)
  obtain ⟨-, same⟩ := @over_meridian d (-1) ⟨0.1, 0⟩ ⟨0.1, -1e-9⟩ ⟨0.1, 2.9⟩ rfl (by decide +kernel) (by decide +kernel) close
  exact ⟨rfl, by decide +kernel, close, (same onward).1⟩

/-- A drag over the date line that touches the prime meridian, or just does not, and turns back. -/
theorem turns_back_on_meridian :
    let d := [Point.mk 0.1 3.1, ⟨0.1, -3.1⟩].foldl step (.start ⟨0, 3⟩)
    d.course.last = some (-3.1) ∧ Side.of (-0.5 : Float) = Side.of (-3.1 : Float) ∧
      |value (-0.5)| < min (min |value (-3.1)| |value (-1)|) |value 3| ∧
      ((d.step ⟨0.1, 0⟩).step ⟨0.1, -1⟩).course.crossing = false ∧
      ((d.step ⟨0.1, -0.5⟩).step ⟨0.1, -1⟩).course.crossing = true ∧
      (((d.step ⟨0.1, 0⟩).step ⟨0.1, -1⟩).box ⟨0.1, -1⟩ defaultEpsilon ==
        ((d.step ⟨0.1, -0.5⟩).step ⟨0.1, -1⟩).box ⟨0.1, -1⟩ defaultEpsilon) = false := by
  decide +kernel

end Drag

end GlobeDrag
