import GlobeDrag.Proofs.Rectangle.Contains
import GlobeDrag.Proofs.Tracker.History

/-!
# Boxes contain their corners

Whether a box contains a point is judged by its bounds alone, while the tracker placed them by the mark of the drag. The two agree for every
box that is given out, also where it was widened: it contains the anchor and the pointer.

Main statement: `contains_after`.
-/

namespace GlobeDrag.Tracker

open Binary64
open Rectangle (isFinite_point)

variable {t : Tracker} {anchor current : Point}

/-- Folded longitudes are in the turn, so the box of a consistent tracker contains its corners. -/
theorem Consistent.contains_corners (h : t.Consistent) (fε : t.epsilon.isFinite = true) (h0 : 0 ≤ value t.epsilon)
    (h1 : value t.epsilon ≤ 1) {box : Rectangle} (hb : (t.update anchor current).box = some box) :
    box.contains anchor.normalize = true ∧ box.contains current.normalize = true := by
  obtain ⟨ha, hc⟩ := isFinite_of_box hb
  have order := (h.ordered_box fε h0 h1 hb).crossesDateLine_eq
  obtain ⟨d, hd, ⟨lat, lon⟩, -, rfl⟩ := h.anchored_box hb
  have spans := Rectangle.spans_spanning (t.update anchor current).tracker.crossing hd.isFinite_anchor
    (Drag.isFinite_normalize hc) fε h0
  have corners : Rectangle.Spans anchor.normalize current.normalize (t.update anchor current).tracker.crossing _ := spans.congr lat lon
  exact corners.contains_corners order (Drag.isFinite_normalize ha) (Drag.isFinite_normalize hc)

/-- After any calls on a tracker whose angle is at most one radian, the box given out for a further position contains the anchor and the
position, their longitudes being folded. -/
theorem contains_after {epsilon : Float} (h0 : 0 < epsilon) (h1 : epsilon ≤ 1) (inputs : List Input) (anchor current : Point)
    {box : Rectangle} (hb : ((after { epsilon } inputs).update anchor current).box = some box) :
    box.contains anchor.normalize = true ∧ box.contains current.normalize = true := by
  obtain ⟨consistent, hε, fε, v0, v1⟩ := consistent_after_small h0 h1 inputs
  rw [← hε] at fε v0 v1
  exact consistent.contains_corners fε v0.le v1 hb

/-- A box over the date line that was widened, for a pointer that went just past the date line from an anchor just short of it. -/
theorem contains_after_date_line :
    let inputs := [Input.update ⟨0, 3.14159265⟩ ⟨0.1, 3.1415926⟩]
    let u := (after { epsilon := defaultEpsilon } inputs).update ⟨0, 3.14159265⟩ ⟨0.1, -3.14159265⟩
    (0 < defaultEpsilon ∧ defaultEpsilon ≤ 1) ∧ u.tracker.crossing = true ∧
      ∃ box, u.box = some box ∧ box.contains ⟨0, 3.14159265⟩ = true ∧ box.contains ⟨0.1, -3.14159265⟩ = true := by
  intro inputs u
  have small : 0 < defaultEpsilon ∧ defaultEpsilon ≤ 1 := by decide +kernel
  have given : u.box.isSome = true := by decide +kernel
  have wraps : u.tracker.crossing = true := by decide +kernel
  obtain ⟨box, hb⟩ := Option.isSome_iff_exists.1 given
  obtain ⟨anchor, current⟩ := contains_after small.1 small.2 inputs ⟨0, 3.14159265⟩ ⟨0.1, -3.14159265⟩ hb
  have folded : Angle.normalize 3.14159265 = 3.14159265 ∧ Angle.normalize (-3.14159265) = -3.14159265 :=
    ⟨Angle.normalize_of_mem (by decide +kernel) (by decide +kernel), Angle.normalize_of_mem (by decide +kernel) (by decide +kernel)⟩
  rw [Point.normalize, folded.1] at anchor
  rw [Point.normalize, folded.2] at current
  exact ⟨small, wraps, box, hb, anchor, current⟩

end GlobeDrag.Tracker
