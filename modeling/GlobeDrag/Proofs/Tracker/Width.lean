import GlobeDrag.Proofs.Rectangle.Width
import GlobeDrag.Proofs.Tracker.History

/-!
# Widths that are given out

The guard keeps boxes from being thin, but it does not measure a box over the date line as `width` does. The width that such a box reports may
be below what the guard asked for, by a rounding.

Main statements: `width_after` (the widths after any calls) and `le_width_after_default` (the default settings are not affected).
-/

namespace GlobeDrag.Tracker

open Binary64
open Rectangle (IsAsked IsNarrow isFinite_point)

variable {t : Tracker} {anchor current : Point} {box : Rectangle} {b : Float}

/-- The box of a consistent tracker is guarded as the box between the two points of the position. -/
theorem Consistent.widthMeets_box {epsilon : Float} (h : t.Consistent) (hε : t.epsilon = epsilon) (fε : epsilon.isFinite = true)
    (h0 : 0 ≤ value epsilon) (h1 : value epsilon ≤ 1) (hb : (t.update anchor current).box = some box)
    (asked : IsAsked anchor.normalize current.normalize (t.update anchor current).tracker.crossing epsilon b) :
    box.WidthMeets (t.update anchor current).tracker.crossing epsilon b := by
  subst hε
  obtain ⟨ha, hc⟩ := isFinite_of_box hb
  obtain ⟨d, hd, ⟨-, same⟩, across, rfl⟩ := h.anchored_box hb
  have fa := (isFinite_point (Drag.isFinite_normalize ha)).2
  have fc := (isFinite_point (Drag.isFinite_normalize hc)).2
  obtain ⟨-, -, ve, vw⟩ := value_bounds (t.update anchor current).tracker.crossing fa fc
  obtain ⟨-, -, ve', vw'⟩ := value_bounds (t.update anchor current).tracker.crossing hd.inTurn_anchor.isFinite fc
  rw [← same] at ve vw
  refine Rectangle.widthMeets_spanning hd.isFinite_anchor (Drag.isFinite_normalize hc) hd.inTurn_anchor
    (Angle.inTurn_normalize (isFinite_point hc).2) across fε h0 h1 (asked.imp_right ?_)
  exact And.imp_right (IsNarrow.congr fa fc hd.inTurn_anchor.isFinite fc (ve.trans ve'.symm) (vw.trans vw'.symm))

/-- After any calls on a tracker whose angle is at most one radian, the box given out for a further position is as wide as the guard asks for,
or over the date line it falls short by a rounding of the width. -/
theorem width_after {epsilon : Float} (h0 : 0 < epsilon) (h1 : epsilon ≤ 1) (inputs : List Input) (anchor current : Point)
    (hb : ((after { epsilon } inputs).update anchor current).box = some box) :
    let crossing := ((after { epsilon } inputs).update anchor current).tracker.crossing
    ∀ b, IsAsked anchor.normalize current.normalize crossing epsilon b → box.WidthMeets crossing epsilon b := by
  intro crossing b asked
  obtain ⟨consistent, hε, fε, v0, v1⟩ := consistent_after_small h0 h1 inputs
  exact consistent.widthMeets_box hε fε v0.le v1 hb asked

/-- A drag with the default angle whose pointer goes just past the date line: the box is widened, and twice the angle is asked of it. -/
theorem width_after_date_line :
    let inputs := [Input.update ⟨0, 3.14159265⟩ ⟨0.1, 3.1415926⟩]
    let u := (after { epsilon := defaultEpsilon } inputs).update ⟨0, 3.14159265⟩ ⟨0.1, -3.14159265⟩
    (0 < defaultEpsilon ∧ defaultEpsilon ≤ 1) ∧ u.tracker.crossing = true ∧
      ∃ box, u.box = some box ∧ box.WidthMeets true defaultEpsilon (2 * defaultEpsilon) := by
  intro inputs u
  have small : 0 < defaultEpsilon ∧ defaultEpsilon ≤ 1 := by decide +kernel
  have given : u.box.isSome = true := by decide +kernel
  have wraps : u.tracker.crossing = true := by decide +kernel
  have thin : IsNarrow (Point.normalize ⟨0, 3.14159265⟩) (Point.normalize ⟨0.1, -3.14159265⟩) true defaultEpsilon := by decide +kernel
  obtain ⟨box, hb⟩ := Option.isSome_iff_exists.1 given
  have meets := width_after small.1 small.2 inputs ⟨0, 3.14159265⟩ ⟨0.1, -3.14159265⟩ hb (2 * defaultEpsilon)
  rw [wraps] at meets
  exact ⟨small, wraps, box, hb, meets (Or.inr ⟨rfl, thin⟩)⟩

/-- Boxes over the date line with widths below what the guard asks for, after the same first move. Two boxes that are not widened are not as
wide as the angle, and the first of them has no width at all. A box that is widened is not as wide as twice the angle. -/
theorem width_after_falls_short :
    let anchor : Point := ⟨0, 3.141592653589793⟩
    let update (epsilon : Float) (current : Point) : Update := (after { epsilon } [.update anchor ⟨0.1, 3.1⟩]).update anchor current
    (update 4e-16 ⟨0.1, -3.1415926535897927⟩).box.any (fun box => box.width == 0 && box.width < 4e-16) = true ∧
      (update 1e-5 ⟨0.1, -3.141582653589793⟩).box.any (fun box => box.width < 1e-5) = true ∧
      IsNarrow anchor.normalize (Point.normalize ⟨0.1, -3.1415926535897927⟩) true 1e-8 ∧
      (update 1e-8 ⟨0.1, -3.1415926535897927⟩).box.any (fun box => box.width < 2 * 1e-8) = true := by
  decide +kernel

/-! ## Default settings -/

/-- The default angle and twice of it are not on a tie. -/
theorem not_fallsShort_default {r : Rectangle} (h : b = defaultEpsilon ∨ b = 2 * defaultEpsilon) : ¬r.FallsShort (value b) := by
  have once : ⌈value defaultEpsilon / 2 ^ (-51 : ℤ)⌉ % 4 = 2 := by decide +kernel
  have twice : ⌈value (2 * defaultEpsilon) / 2 ^ (-51 : ℤ)⌉ % 4 = 3 := by decide +kernel
  rintro ⟨-, tie⟩
  rcases h with rfl | rfl <;> omega

/-- With the default angle, after any calls, the box given out for a further position is as wide as the guard asks for: the width is at least
the angle, and at least twice of it if the box was widened. -/
theorem le_width_after_default (inputs : List Input) (anchor current : Point)
    (hb : ((after { epsilon := defaultEpsilon } inputs).update anchor current).box = some box)
    (asked : IsAsked anchor.normalize current.normalize
      ((after { epsilon := defaultEpsilon } inputs).update anchor current).tracker.crossing defaultEpsilon b) : b ≤ box.width := by
  have small : value defaultEpsilon ≤ 1 / 2 := by decide +kernel
  have h0 : 0 < defaultEpsilon := by decide +kernel
  obtain ⟨consistent, hε, fε, v0, v1⟩ := consistent_after_small h0 (by decide +kernel) inputs
  have meets := consistent.widthMeets_box hε fε v0.le v1 hb asked
  cases wraps : ((after { epsilon := defaultEpsilon } inputs).update anchor current).tracker.crossing with
  | false => exact meets.le_width wraps
  | true => exact (meets.le_width_iff wraps small).2 (not_fallsShort_default (asked.imp_right And.left))

end GlobeDrag.Tracker
