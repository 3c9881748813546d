import GlobeDrag.Proofs.Rectangle.Mirror
import GlobeDrag.Proofs.Session

/-!
# Runs with east and west exchanged

A tracker that is given the mirror images of some positions is the mirror image of the tracker that is given the positions. The date line
has no mirror image of its own, because it belongs to the east alone; positions on it and beyond it are left out here.

Main statements: `MirrorImage.handle` and `MirrorImage.after` (the trackers), and `mirror_update`, which adds the boxes and what is stored
of them.
-/

namespace GlobeDrag

open Angle (halfTurn)
open Binary64 DateLine

/-! ## Points away from the date line -/

/-- A finite point whose longitude is between the ends of the turn, neither of which it reaches. -/
structure Point.Inside (p : Point) : Prop where
  isFinite_latitude : p.latitude.isFinite = true
  lt_longitude : -halfTurn < p.longitude
  longitude_lt : p.longitude < halfTurn

namespace Point.Inside

variable {p : Point}

/-- Folding leaves such a point as it is. -/
theorem normalize_eq (h : p.Inside) : p.normalize = p := by
  rw [normalize, Angle.normalize_of_mem h.lt_longitude (le_of_lt_double h.longitude_lt)]

/-- A point inside the turn is finite. -/
theorem isFinite (h : p.Inside) : p.isFinite = true := by
  have longitude := isFinite_of_le_of_le Angle.isFinite_neg_halfTurn Angle.isFinite_halfTurn (le_of_lt_double h.lt_longitude)
    (le_of_lt_double h.longitude_lt)
  exact Bool.and_eq_true_iff.2 ⟨h.isFinite_latitude, longitude⟩

/-- Its mirror image is inside, too. -/
theorem mirror (h : p.Inside) : p.mirror.Inside where
  isFinite_latitude := h.isFinite_latitude
  lt_longitude := (Mirrors.neg_lt_neg _ _).2 h.longitude_lt
  longitude_lt := by
    have lt := h.lt_longitude
    simp only [lt_iff_number, isNaN_neg, value_neg] at lt
    obtain ⟨nh, np, lt⟩ := lt
    simp only [Point.mirror, lt_iff_number, isNaN_neg, value_neg]
    exact ⟨np, nh, neg_lt.1 lt⟩

end Point.Inside

/-! ## Drags -/

/-- The drag on the other side of the prime meridian. -/
def Drag.mirror (d : Drag) : Drag := ⟨d.anchor.mirror, d.course.mirror⟩

/-- The mirror image of a step is a step of the mirror image. -/
theorem Drag.mirror_step (d : Drag) (current : Point) : (d.step current).mirror = d.mirror.step current.mirror :=
  congrArg (mk d.anchor.mirror) (Course.mirror_step ..)

namespace Tracker

/-! ## Trackers -/

/-- The call with its points on the other side of the prime meridian. -/
def Input.mirror : Input → Input
  | .update anchor current => .update anchor.mirror current.mirror
  | .finish => .finish
  | .reset => .reset

/-- The positions of a call lie away from the date line. -/
def Input.Inside : Input → Prop
  | .update anchor current => anchor.Inside ∧ current.Inside
  | .finish => True
  | .reset => True

/-- A tracker has the same angle as another, and its drag is the mirror image of the other one's. The last boxes are left out: those of
thin boxes are no mirror images of each other. -/
structure MirrorImage (t t' : Tracker) : Prop where
  epsilon_eq : t'.epsilon = t.epsilon
  drag_eq : t'.drag = t.drag.map .mirror

namespace MirrorImage

variable {t t' : Tracker} {anchor current : Point}

/-- Mirror images face mirrored anchors alike. -/
theorem facing (h : MirrorImage t t') (anchor : Point) : (t'.facing anchor.mirror).1 = (t.facing anchor).1.mirror := by
  rw [Tracker.facing, Tracker.facing, h.drag_eq]
  cases t.drag with
  | none => rfl
  | some d =>
    dsimp only [Option.map_some]
    rw [Drag.mirror, Point.mirror_beq_mirror]
    split <;> rfl

/-- Positions away from the date line give the drags that face the anchor mirrored steps. -/
theorem drag_update (h : MirrorImage t t') (ha : anchor.Inside) (hc : current.Inside) :
    (t'.update anchor.mirror current.mirror).tracker.drag = (t.update anchor current).tracker.drag.map .mirror := by
  rw [Tracker.drag_update ha.isFinite hc.isFinite, Tracker.drag_update ha.mirror.isFinite hc.mirror.isFinite, Option.map_some,
    ha.normalize_eq, hc.normalize_eq, ha.mirror.normalize_eq, hc.mirror.normalize_eq, h.facing, Drag.mirror_step]

/-- An update keeps mirror images. -/
theorem update (h : MirrorImage t t') (ha : anchor.Inside) (hc : current.Inside) :
    MirrorImage (t.update anchor current).tracker (t'.update anchor.mirror current.mirror).tracker where
  epsilon_eq := by rw [epsilon_update, epsilon_update, h.epsilon_eq]
  drag_eq := h.drag_update ha hc

/-- A call and its mirror image keep the trackers mirror images of each other. -/
theorem handle (h : MirrorImage t t') {i : Input} (hi : i.Inside) : MirrorImage (t.handle i) (t'.handle i.mirror) := by
  cases i with
  | update anchor current => exact h.update hi.1 hi.2
  | finish => exact ⟨h.epsilon_eq, rfl⟩
  | reset => exact ⟨h.epsilon_eq, rfl⟩

/-- So do any calls. -/
theorem after (h : MirrorImage t t') {inputs : List Input} (inside : ∀ i ∈ inputs, i.Inside) :
    MirrorImage (t.after inputs) (t'.after (inputs.map .mirror)) := by
  induction inputs generalizing t t' with
  | nil => exact h
  | cons i rest ih =>
    obtain ⟨hi, hrest⟩ := List.forall_mem_cons.1 inside
    exact ih (h.handle hi) hrest

/-- Mirror images wrap alike. -/
theorem crossing_eq (h : MirrorImage t t') : t'.crossing = t.crossing := by
  rw [crossing, crossing, h.drag_eq, Option.any_map]
  rfl

/-- Their headings are opposite. -/
theorem heading_eq (h : MirrorImage t t') : t'.heading = t.heading.opposite := by
  rw [heading, heading, h.drag_eq]
  cases t.drag <;> rfl

end MirrorImage

/-- The boxes between the corners of a drag and between those of its mirror image, with their extents. -/
theorem box_mirror {t t' : Tracker} {anchor current : Point} {d : Drag} (image : MirrorImage t t') (consistent : t.Consistent)
    (ha : anchor.Inside) (hc : current.Inside) (hd : (t.update anchor current).tracker.drag = some d)
    (wide : ¬Rectangle.IsThin d.anchor current d.course.crossing t.epsilon)
    (wide' : ¬Rectangle.IsThin d.mirror.anchor current.mirror d.mirror.course.crossing t.epsilon) :
    ∃ box, box.isFinite = true ∧ (t.update anchor current).box = some box ∧
      (t'.update anchor.mirror current.mirror).box = some box.mirror := by
  have finite : d.anchor.isFinite = true := (consistent.update anchor current d hd).isFinite_anchor
  have hd' := image.drag_update ha hc
  rw [hd, drag_update ha.mirror.isFinite hc.mirror.isFinite, Option.map_some, Option.some.injEq, hc.mirror.normalize_eq] at hd'
  rw [drag_update ha.isFinite hc.isFinite, Option.some.injEq, hc.normalize_eq] at hd
  have isFinite := Rectangle.isFinite_spanning finite hc.isFinite wide
  refine ⟨d.box current t.epsilon, isFinite, ?_, ?_⟩
  · rw [box_update ha.isFinite hc.isFinite, hc.normalize_eq, hd]
    exact ⟨rfl, isFinite⟩
  · rw [box_update ha.mirror.isFinite hc.mirror.isFinite, hc.mirror.normalize_eq, hd', image.epsilon_eq, Rectangle.isFinite_mirror]
    exact ⟨(Rectangle.spanning_mirror wide wide').symm, isFinite⟩

/-- After any calls with positions away from the date line, and for one more such position: the tracker of the mirrored run has the same
mark and the opposite heading, and its pointer was last seen at the negated longitude. Unless one of the two boxes has a span below
`epsilon`, both are given out and are mirror images of each other, and so are their extents. -/
theorem mirror_update (epsilon : Float) {inputs : List Input} (inside : ∀ i ∈ inputs, i.Inside) {anchor current : Point}
    (ha : anchor.Inside) (hc : current.Inside) :
    let u := (after { epsilon } inputs).update anchor current
    let v := (after { epsilon } (inputs.map .mirror)).update anchor.mirror current.mirror
    v.tracker.crossing = u.tracker.crossing ∧ v.tracker.heading = u.tracker.heading.opposite ∧
    ∃ d, u.tracker.drag = some d ∧ v.tracker.drag = some d.mirror ∧ d.course.last = some current.longitude ∧
      d.mirror.course.last = some (-current.longitude) ∧
      (¬Rectangle.IsThin d.anchor current d.course.crossing epsilon →
        ¬Rectangle.IsThin d.mirror.anchor current.mirror d.mirror.course.crossing epsilon →
        ∃ box, u.box = some box ∧ v.box = some box.mirror ∧ ∀ settings : Settings, settings.validate = .ok () →
          (Extent.ofRectangle box.mirror settings.precision == (Extent.ofRectangle box settings.precision).mirror) = true) := by
  intro u v
  have image : MirrorImage (after { epsilon } inputs) (after { epsilon } (inputs.map .mirror)) :=
    MirrorImage.after ⟨rfl, rfl⟩ inside
  have next : MirrorImage u.tracker v.tracker := image.update ha hc
  obtain ⟨consistent, hε⟩ := (consistent_of_drag_eq_none (t := { epsilon }) rfl).after inputs
  obtain ⟨d, hd, hlast⟩ : ∃ d, u.tracker.drag = some d ∧ d.course.last = some current.longitude := by
    refine ⟨_, drag_update ha.isFinite hc.isFinite, ?_⟩
    rw [hc.normalize_eq]
    exact Course.last_step _ _ _
  refine ⟨next.crossing_eq, next.heading_eq, d, hd, by rw [next.drag_eq, hd]; rfl, hlast, congrArg (Option.map (-·)) hlast, ?_⟩
  intro wide wide'
  have boxes := box_mirror image consistent ha hc hd
  rw [hε] at boxes
  obtain ⟨box, finite, hu, hv⟩ := boxes wide wide'
  refine ⟨box, hu, hv, fun settings valid => ?_⟩
  obtain ⟨-, -, hp⟩ := Settings.of_validate valid
  exact Extent.ofRectangle_mirror hp finite

/-- A drag over the date line and its mirror image. -/
theorem mirror_update_wrapping :
    let moves := [Input.update ⟨0, 3⟩ ⟨0.1, 3.1⟩]
    (∀ i ∈ moves, i.Inside) ∧ Point.Inside ⟨0, 3⟩ ∧ Point.Inside ⟨0.1, -3.1⟩ ∧
      ∃ box, ((after { epsilon := defaultEpsilon } moves).update ⟨0, 3⟩ ⟨0.1, -3.1⟩).box = some box ∧
        ((after { epsilon := defaultEpsilon } (moves.map .mirror)).update ⟨0, -3⟩ ⟨0.1, - -3.1⟩).box = some box.mirror := by
  have anchor : Point.Inside ⟨0, 3⟩ := ⟨by decide, by decide +kernel, by decide +kernel⟩
  have first : Point.Inside ⟨0.1, 3.1⟩ := ⟨by decide, by decide +kernel, by decide +kernel⟩
  have second : Point.Inside ⟨0.1, -3.1⟩ := ⟨by decide, by decide +kernel, by decide +kernel⟩
  have inside : ∀ i ∈ [Input.update ⟨0, 3⟩ ⟨0.1, 3.1⟩], i.Inside := List.forall_mem_singleton.2 ⟨anchor, first⟩
  obtain ⟨-, -, d, hd, -, -, -, boxes⟩ := mirror_update defaultEpsilon inside anchor second
  have wide : (((after { epsilon := defaultEpsilon } [Input.update ⟨0, 3⟩ ⟨0.1, 3.1⟩]).update ⟨0, 3⟩ ⟨0.1, -3.1⟩).tracker.drag.all
      fun d => decide (¬Rectangle.IsThin d.anchor ⟨0.1, -3.1⟩ d.course.crossing defaultEpsilon ∧
        ¬Rectangle.IsThin d.mirror.anchor ⟨0.1, - -3.1⟩ d.mirror.course.crossing defaultEpsilon)) = true := by decide +kernel
  rw [hd, Option.all_some, decide_eq_true_iff] at wide
  obtain ⟨box, hu, hv, -⟩ := boxes wide.1 wide.2
  exact ⟨inside, anchor, second, box, hu, hv⟩

end Tracker

end GlobeDrag
