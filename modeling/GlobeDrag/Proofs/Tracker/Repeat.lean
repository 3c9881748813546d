import GlobeDrag.Proofs.DateLine.Heading
import GlobeDrag.Proofs.Tracker.History

/-!
# Positions given twice

A tracker that is given a position again stays as it is and answers with the same box. The one exception is a position on the prime
meridian that left the box wrapping: the next move, wherever it leads, is handled like the first of a drag, so that the same position
ends the wrapping. From the second time on nothing changes any more.

Main statements: `Drag.Consistent.step_again` and `Drag.Consistent.step_again_of_wrapping` (a step to where the pointer was),
`update_of_step_eq` (a position that does not change the drag) and `update_again`, which joins them.
-/

namespace GlobeDrag

open Binary64 DateLine

/-! ## Steps that lead nowhere -/

namespace DateLine

/-- A move that stays where it was is one on the side of the anchor, or it is not classified. -/
theorem Move.ofSides_self (s anchor : Option Side) :
    (∃ side, s = some side ∧ anchor = some side ∧ ofSides s s anchor = .sameSide) ∨ ofSides s s anchor = .unclassified := by
  rcases s with _ | (_ | _) <;> rcases anchor with _ | (_ | _) <;> simp [ofSides]

/-- Off the prime meridian, where a box may not wrap on the side of the anchor, a step to where the pointer was changes nothing. -/
theorem Course.step_self {anchor x : Float} {c : Course Float} (hlast : c.last = some x) (h0 : (x == 0) = false)
    (clear : ∀ s, Side.of x = some s → Side.of anchor = some s → c.crossing = false) : c.step anchor x = c := by
  have still : ¬x < x := fun h => lt_irrefl _ (lt_iff_number.1 h).2.2
  rw [step_of_move hlast h0, Move.classify]
  rcases Move.ofSides_self (Side.of x) (Side.of anchor) with ⟨s, hx, ha, hk⟩ | hk <;> rw [hk, ← hlast]
  · rw [headingAfter, Heading.track, if_neg still, if_neg still, crossingAfter, ← clear s hx ha]
  · rfl

end DateLine

namespace Drag

variable {d : Drag} {current : Point}

/-- On the side of its anchor a drag does not wrap. -/
theorem Consistent.crossing_of_side (h : d.Consistent) {last : Float} {s : Side} (hlast : d.course.last = some last)
    (hl : Side.of last = some s) (ha : Side.of d.anchor.longitude = some s) : d.course.crossing = false := by
  rw [Bool.eq_false_iff]
  intro hc
  obtain ⟨l, hl', across⟩ := h.across hc
  rw [hlast, Option.some.injEq] at hl'
  exact not_across_of_side ha hl (hl' ▸ across)

/-- A step to where the pointer was changes nothing, except on the prime meridian while the box wraps. -/
theorem Consistent.step_again (h : d.Consistent) (hlast : d.course.last = some current.longitude)
    (ordinary : ¬((current.longitude == 0) = true ∧ d.course.crossing = true)) : d.step current = d := by
  cases h0 : current.longitude == 0 with
  | true =>
    have hc : d.course.crossing = false := Bool.eq_false_iff.2 fun hc => ordinary ⟨h0, hc⟩
    rw [Drag.step, Course.step_of_zero hlast h0, ← hlast, ← hc]
  | false =>
    rw [Drag.step, Course.step_self hlast h0 fun s hl ha => h.crossing_of_side hlast hl ha]

/-- There it ends the wrapping. -/
theorem step_again_of_wrapping (hlast : d.course.last = some current.longitude) (h0 : (current.longitude == 0) = true) :
    d.step current = { d with course := { d.course with crossing := false } } := by
  rw [Drag.step, Course.step_of_zero hlast h0, ← hlast]

/-- After two steps to where the pointer was, a third changes nothing. -/
theorem Consistent.step_step_again (h : d.Consistent) (hlast : d.course.last = some current.longitude) :
    (d.step current).step current = d.step current := by
  by_cases hw : (current.longitude == 0) = true ∧ d.course.crossing = true
  · rw [step_again_of_wrapping hlast hw.1]
    exact step_again_of_wrapping (d := { d with course := { d.course with crossing := false } }) hlast hw.1
  · rw [h.step_again hlast hw, h.step_again hlast hw]

end Drag

/-! ## Positions that change nothing -/

namespace Tracker

variable {t : Tracker} {anchor current : Point}

/-- The answer to a position with finite coordinates is the box of the step, if it is finite. -/
theorem box_update_eq (ha : anchor.isFinite = true) (hc : current.isFinite = true) :
    (t.update anchor current).box =
      (some (((t.facing anchor.normalize).1.step current.normalize).box current.normalize t.epsilon)).filter Rectangle.isFinite := by
  refine Option.ext fun box => ?_
  rw [box_update ha hc, Option.filter_eq_some_iff, Option.some.injEq, eq_comm]

/-- After a position, the tracker faces the anchor with the drag that the position left. -/
theorem facing_update (ha : anchor.isFinite = true) (hc : current.isFinite = true) :
    (t.update anchor current).tracker.facing anchor.normalize =
      ((t.facing anchor.normalize).1.step current.normalize, (t.update anchor current).tracker.lastBox, []) := by
  have hd := drag_update (t := t) ha hc
  exact facing_of_drag hd (anchor_update ha hc hd)

/-- A position given again changes nothing if it does not change the drag. -/
theorem update_of_step_eq (ha : anchor.isFinite = true) (hc : current.isFinite = true)
    (same : ((t.facing anchor.normalize).1.step current.normalize).step current.normalize =
      (t.facing anchor.normalize).1.step current.normalize) :
    ((t.update anchor current).tracker.update anchor current).tracker = (t.update anchor current).tracker ∧
      ((t.update anchor current).tracker.update anchor current).box = (t.update anchor current).box := by
  have hbox : ((t.update anchor current).tracker.update anchor current).box = (t.update anchor current).box := by
    rw [box_update_eq ha hc, facing_update ha hc, same, epsilon_update, ← box_update_eq ha hc]
  refine ⟨?_, hbox⟩
  rw [tracker_update ha hc, hbox, facing_update ha hc, same, tracker_update ha hc]
  cases (t.update anchor current).box <;> rfl

/-- A position with finite coordinates, given a second time, changes neither tracker nor answer, except on the prime meridian where the
first time left the box wrapping: then it ends the wrapping and changes nothing else in the drag. Any further time the tracker and the
answer are as the second time. -/
theorem update_again (epsilon : Float) (inputs : List Input) (ha : anchor.isFinite = true) (hc : current.isFinite = true) :
    let t := after { epsilon } inputs
    let first := t.update anchor current
    let second := first.tracker.update anchor current
    (¬((current.normalize.longitude == 0) = true ∧ first.tracker.crossing = true) →
      second.tracker = first.tracker ∧ second.box = first.box) ∧
    ((current.normalize.longitude == 0) = true → first.tracker.crossing = true →
      ∃ d, first.tracker.drag = some d ∧ second.tracker.drag = some { d with course := { d.course with crossing := false } }) ∧
    ∀ n, let further := (t.after (List.replicate (n + 2) (.update anchor current))).update anchor current
      further.tracker = second.tracker ∧ further.box = second.box := by
  intro t first second
  have consistent : t.Consistent := ((consistent_of_drag_eq_none (t := { epsilon }) rfl).after inputs).1
  have hdrag : first.tracker.drag = some ((t.facing anchor.normalize).1.step current.normalize) := drag_update ha hc
  have hd := consistent.update anchor current _ hdrag
  have hlast : ((t.facing anchor.normalize).1.step current.normalize).course.last = some current.normalize.longitude :=
    Course.last_step _ _ _
  have hcross : first.tracker.crossing = ((t.facing anchor.normalize).1.step current.normalize).course.crossing := by
    rw [crossing, hdrag]
    rfl
  have hfirst : (first.tracker.facing anchor.normalize).1 = (t.facing anchor.normalize).1.step current.normalize :=
    congrArg Prod.fst (facing_update ha hc)
  refine ⟨?_, ?_, ?_⟩
  · intro ordinary
    rw [hcross] at ordinary
    exact update_of_step_eq ha hc (hd.step_again hlast ordinary)
  · intro h0 _
    refine ⟨_, hdrag, ?_⟩
    rw [drag_update ha hc, hfirst, Drag.step_again_of_wrapping hlast h0]
  · have third := update_of_step_eq (t := first.tracker) ha hc (by rw [hfirst, hd.step_step_again hlast])
    have settled (n : ℕ) : t.after (List.replicate (n + 2) (.update anchor current)) = second.tracker := by
      induction n with
      | zero => rfl
      | succ n ih =>
        rw [List.replicate_succ', after_concat, ih]
        exact third.1
    intro n
    dsimp only
    rw [settled n]
    exact third

/-- The pointer comes over the date line and rests on the prime meridian. -/
theorem update_again_resting :
    let t := after { epsilon := defaultEpsilon } [.update ⟨0, 3⟩ ⟨0.1, 3.1⟩, .update ⟨0, 3⟩ ⟨0.1, -3.1⟩]
    let first := t.update ⟨0, 3⟩ ⟨0.1, 0⟩
    let second := first.tracker.update ⟨0, 3⟩ ⟨0.1, 0⟩
    (Point.isFinite ⟨0, 3⟩ = true ∧ Point.isFinite ⟨0.1, 0⟩ = true) ∧
      (Point.normalize ⟨0.1, 0⟩).longitude == 0 ∧ first.tracker.crossing = true ∧ second.tracker.crossing = false ∧
      (second.tracker.update ⟨0, 3⟩ ⟨0.1, 0⟩).tracker = second.tracker := by
  intro t first second
  have finite : Point.isFinite ⟨0, 3⟩ = true ∧ Point.isFinite ⟨0.1, 0⟩ = true := by decide
  have onMeridian : ((Point.normalize ⟨0.1, 0⟩).longitude == 0) = true := by decide +kernel
  have wraps : first.tracker.crossing = true := by decide +kernel
  obtain ⟨-, ended, further⟩ :=
    update_again defaultEpsilon [.update ⟨0, 3⟩ ⟨0.1, 3.1⟩, .update ⟨0, 3⟩ ⟨0.1, -3.1⟩] finite.1 finite.2
  obtain ⟨d, -, hd⟩ := ended onMeridian wraps
  refine ⟨finite, onMeridian, wraps, ?_, (further 0).1⟩
  rw [crossing, hd]
  rfl

end Tracker

end GlobeDrag
