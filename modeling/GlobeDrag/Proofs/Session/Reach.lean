import GlobeDrag.Proofs.Extent.Reach
import GlobeDrag.Proofs.Session
import GlobeDrag.Proofs.Session.Lifecycle

/-!
# How far a session reaches

Fed with points that degrees stand for, a tracker gives boxes whose southern and western bounds lie on the globe, and whose northern
and eastern bounds do unless the box is thin and close to the pole or the date line. Whether the extents of a session keep to the
ranges of degrees can be told from its settings alone, by a look at the outermost box.

Main statements: `Tracker.Consistent.reaches_box` (the boxes of a tracker), `extent_after` (where the extent of a session comes from),
`inRange_iff` (the settings under which no session leaves the ranges) and `reach_of_fed`, which joins them.
-/

namespace GlobeDrag

open Angle Binary64 DateLine
open Rectangle (outermost)

/-! ## Boxes of a tracker -/

namespace Tracker

variable {t : Tracker} {anchor current : Point}

/-- How far the boxes reach that a tracker gives for points that degrees stand for. -/
theorem Consistent.reaches_box (h : t.Consistent) (fε : t.epsilon.isFinite = true) (h0 : 0 < value t.epsilon)
    (ha : anchor.FromDegrees) (hc : current.FromDegrees) {box : Rectangle} (hb : (t.update anchor current).box = some box) :
    box.Reaches anchor.normalize current.normalize (t.update anchor current).tracker.crossing t.epsilon := by
  obtain ⟨fa, ga⟩ := ha.onGlobe_normalize
  obtain ⟨fc, gc⟩ := hc.onGlobe_normalize
  obtain ⟨d, hd, ⟨vlat, vlon⟩, across, rfl⟩ := h.anchored_box hb
  have gd : d.anchor.OnGlobe := ⟨(Rectangle.isFinite_point hd.isFinite_anchor).1, vlat ▸ ga.le_latitude, vlat ▸ ga.latitude_le, hd.inTurn_anchor⟩
  exact (Rectangle.reaches_spanning gd gc across fε h0).congr gd ga gc vlat vlon

/-- The same after any calls on a new tracker. -/
theorem reaches_box_after {epsilon : Float} (fε : epsilon.isFinite = true) (h0 : 0 < value epsilon) (calls : List Input)
    (ha : anchor.FromDegrees) (hc : current.FromDegrees) {box : Rectangle}
    (hb : ((after { epsilon } calls).update anchor current).box = some box) :
    box.Reaches anchor.normalize current.normalize ((after { epsilon } calls).update anchor current).tracker.crossing epsilon := by
  obtain ⟨cons, hε⟩ := (consistent_of_drag_eq_none (t := { epsilon }) rfl).after calls
  have reach := cons.reaches_box (hε ▸ fε) (hε ▸ h0) ha hc hb
  rwa [hε] at reach

end Tracker

/-! ## Extents of a session -/

namespace Session

variable {settings : Settings} {s : Session}

/-- What an operation makes of the extent: it stays, is emptied, or becomes that of the box that a move gave. -/
theorem extent_handle (s : Session) (i : Input) :
    (s.handle i).session.extent = s.extent ∨ (s.handle i).session.extent = .empty ∨
      ∃ anchor current box, s.phase = .dragging anchor ∧ i = .move (some current) ∧
        (s.tracker.update anchor current).box = some box ∧
        (s.handle i).session.extent = .ofRectangle box s.settings.precision := by
  cases i with
  | press point =>
    change (s.press point).session.extent = _ ∨ (s.press point).session.extent = _ ∨ _
    unfold press
    split
    · split
      · exact Or.inl rfl
      · exact Or.inr (Or.inl rfl)
    · exact Or.inl rfl
  | move point =>
    change (s.move point).session.extent = s.extent ∨ (s.move point).session.extent = .empty ∨
      ∃ anchor current box, s.phase = .dragging anchor ∧ Input.move point = .move (some current) ∧
        (s.tracker.update anchor current).box = some box ∧ (s.move point).session.extent = .ofRectangle box s.settings.precision
    unfold move
    split
    · next anchor current hs =>
      dsimp only
      split
      · exact Or.inl rfl
      · next box hb => exact Or.inr (Or.inr ⟨anchor, current, box, hs, rfl, hb, rfl⟩)
    · exact Or.inl rfl
  | release =>
    change s.release.session.extent = _ ∨ _
    unfold release
    split
    · exact Or.inl rfl
    · exact Or.inl rfl
  | cancel =>
    change s.cancel.session.extent = _ ∨ s.cancel.session.extent = _ ∨ _
    unfold Session.cancel
    split
    · exact Or.inr (Or.inl rfl)
    · exact Or.inl rfl
  | restart => exact Or.inr (Or.inl rfl)

/-- Every position of a drag is that of a move. -/
theorem move_mem_of_mem_positions {during : List Input} {p : Point} (h : p ∈ positions during) : .move (some p) ∈ during := by
  obtain ⟨i, hi, hp⟩ := List.mem_filterMap.1 h
  cases i with
  | move point =>
    rw [← show point = some p from hp]
    exact hi
  | _ => cases hp

/-- The extent of a session is empty, or that of a box that a new tracker gives in a drag from a point where the button went down, after
points where the pointer moved. -/
theorem extent_after (settings : Settings) (inputs : List Input) :
    ((start settings).after inputs).extent = .empty ∨
      ∃ anchor points current, .press (some anchor) ∈ inputs ∧ (∀ p ∈ current :: points, .move (some p) ∈ inputs) ∧
        ∃ box, ((trackerOf settings anchor points).update anchor current).box = some box ∧
          ((start settings).after inputs).extent = .ofRectangle box settings.precision := by
  induction inputs using List.reverseRecOn with
  | nil => exact Or.inl rfl
  | append_singleton l i ih =>
    rw [after_concat]
    rcases extent_handle ((start settings).after l) i with same | empty | ⟨anchor, current, box, hs, rfl, hb, he⟩
    · rw [same]
      refine ih.imp id ?_
      rintro ⟨anchor, points, current, pressed, moved, given⟩
      exact ⟨anchor, points, current, List.mem_append_left _ pressed, fun p hp => List.mem_append_left _ (moved p hp), given⟩
    · exact Or.inl empty
    · obtain ⟨before, during, rfl, -, hmid⟩ := after_of_dragging hs
      rw [hmid] at hb he
      refine Or.inr ⟨anchor, positions during, current, by simp, ?_, box, hb, hmid ▸ he⟩
      intro p hp
      rcases List.mem_cons.1 hp with rfl | hp
      · exact List.mem_concat_self
      · simp [move_mem_of_mem_positions hp]

/-- The points of these operations are ones that degrees stand for. -/
def Fed (inputs : List Input) : Prop :=
  ∀ i ∈ inputs, ∀ p, i = .press (some p) ∨ i = .move (some p) → p.FromDegrees

/-- How far the extent of a fed session reaches. -/
theorem Fed.reaches_box {inputs : List Input} (fed : Fed inputs) (valid : settings.validate = .ok ()) :
    ((start settings).after inputs).extent = .empty ∨
      ∃ anchor points current, .press (some anchor) ∈ inputs ∧ (∀ p ∈ current :: points, .move (some p) ∈ inputs) ∧
        let u := (trackerOf settings anchor points).update anchor current
        ∃ box : Rectangle, box.isFinite = true ∧
          box.Reaches anchor.normalize current.normalize u.tracker.crossing settings.epsilon ∧
          ((start settings).after inputs).extent = .ofRectangle box settings.precision := by
  obtain ⟨fε, h0, -⟩ := Settings.of_validate valid
  refine (extent_after settings inputs).imp id ?_
  rintro ⟨anchor, points, current, pressed, moved, box, hb, he⟩
  have ha := fed _ pressed anchor (Or.inl rfl)
  have hc := fed _ (moved current List.mem_cons_self) current (Or.inr rfl)
  have reach := Tracker.reaches_box_after fε h0 (points.map (.update anchor)) ha hc hb
  have finite := ((Tracker.box_update ha.onGlobe_normalize.1 hc.onGlobe_normalize.1 box).1 hb).2
  exact ⟨anchor, points, current, pressed, moved, box, finite, reach, he⟩

/-- A click on the outermost corner with a move on the spot. -/
def cornerDrag : List Input :=
  [.press (some .corner), .move (some .corner)]

/-- The positions of the drag into the corner are points from degrees. -/
theorem fed_cornerDrag : Fed cornerDrag := by
  rintro i hi p (rfl | rfl)
  · obtain rfl : p = .corner := by simpa [cornerDrag] using hi
    exact Point.fromDegrees_corner
  · obtain rfl : p = .corner := by simpa [cornerDrag] using hi
    exact Point.fromDegrees_corner

/-- It leaves the extent of the outermost box, if this is finite. -/
theorem extent_cornerDrag (settings : Settings) (finite : (outermost settings.epsilon).isFinite = true) :
    ((start settings).after cornerDrag).extent = .ofRectangle (outermost settings.epsilon) settings.precision := by
  have fc : Point.corner.isFinite = true := Point.fromDegrees_corner.onGlobe_normalize.1
  have given : (Tracker.update { epsilon := settings.epsilon } .corner .corner).box = some (outermost settings.epsilon) := by
    rw [Tracker.box_update fc fc, Point.normalize_corner]
    exact ⟨rfl, finite⟩
  have last : (trackerOf settings .corner [.corner]).lastBox = some (outermost settings.epsilon) := by
    have h := ((Tracker.faces_after settings.epsilon fc []).1.update fc .corner).2
    rw [show Tracker.after { epsilon := settings.epsilon } _ = { epsilon := settings.epsilon } from rfl, given, Option.some_or] at h
    exact h
  have drags : Drags settings [] .corner [.move (some .corner)] := ⟨rfl, fc, by simp [Input.staysInDrag]⟩
  have after : (start settings).after cornerDrag = midDrag settings .corner [.corner] := drags.after_press.2
  rw [after, midDrag, last]
  rfl

theorem validate_default : ({} : Settings).validate = .ok () := rfl

/-- The settings under which all fed sessions keep to the ranges of degrees are those whose outermost box does, or is not finite. -/
theorem inRange_iff (valid : settings.validate = .ok ()) :
    (∀ inputs, Fed inputs → ((start settings).after inputs).extent.InRange) ↔
      ((outermost settings.epsilon).isFinite = true → (Extent.ofRectangle (outermost settings.epsilon) settings.precision).InRange) := by
  obtain ⟨-, -, hp⟩ := Settings.of_validate valid
  constructor
  · intro all finite
    rw [← extent_cornerDrag settings finite]
    exact all cornerDrag fed_cornerDrag
  · intro outer inputs fed
    rcases fed.reaches_box valid with he | ⟨anchor, points, current, -, -, box, hf, reach, he⟩ <;> rw [he]
    · exact Extent.inRange_empty
    · exact Extent.inRange_ofRectangle hp reach hf outer

/-- With settings that can be used: a tracker, after any calls, and a session give boxes for points that degrees stand for whose southern
and western bounds lie on the globe, and whose northern and eastern bounds do unless the box is thin and close to the pole or the date
line; then they reach no further than those of the outermost box. All bounds of all extents of such sessions keep to the ranges of
degrees exactly if the outermost box does, or is never given out. The default settings are such, and their bounds make points again. -/
theorem reach_of_fed (valid : settings.validate = .ok ()) :
    (∀ calls anchor current, anchor.FromDegrees → current.FromDegrees →
      let u := (Tracker.after { epsilon := settings.epsilon } calls).update anchor current
      ∀ box, u.box = some box →
        box.Reaches anchor.normalize current.normalize u.tracker.crossing settings.epsilon) ∧
    (∀ inputs, Fed inputs →
      let e := ((start settings).after inputs).extent
      e = .empty ∨ ∃ anchor points current, .press (some anchor) ∈ inputs ∧ (∀ p ∈ current :: points, .move (some p) ∈ inputs) ∧
        let u := (trackerOf settings anchor points).update anchor current
        ∃ north south east west, e = ⟨some north, some south, some east, some west⟩ ∧
          Extent.Reaches anchor.normalize current.normalize u.tracker.crossing settings north south east west) ∧
    ((∀ inputs, Fed inputs → ((start settings).after inputs).extent.InRange) ↔
      ((outermost settings.epsilon).isFinite = true →
        (Extent.ofRectangle (outermost settings.epsilon) settings.precision).InRange)) ∧
    ∀ inputs, Fed inputs →
      let e := ((start {}).after inputs).extent
      e.InRange ∧ ∀ lat lon, e.north = some lat ∨ e.south = some lat → e.east = some lon ∨ e.west = some lon →
        ∃ p, Point.ofDegrees lat lon = .ok p := by
  obtain ⟨fε, h0, hp⟩ := Settings.of_validate valid
  refine ⟨?_, ?_, inRange_iff valid, ?_⟩
  · intro calls anchor current ha hc u box hb
    exact Tracker.reaches_box_after fε h0 calls ha hc hb
  · intro inputs fed e
    refine (fed.reaches_box valid).imp id ?_
    rintro ⟨anchor, points, current, pressed, moved, box, -, reach, he⟩
    exact ⟨anchor, points, current, pressed, moved, _, _, _, _, he, Extent.reaches_ofRectangle hp reach⟩
  · intro inputs fed e
    have range := (inRange_iff validate_default).2 (fun _ => Extent.inRange_outermost_default) inputs fed
    exact ⟨range, fun lat lon hlat hlon => range.exists_point hlat hlon⟩

/-- A click on the outermost corner, with the default settings. -/
theorem reach_of_fed_corner :
    ({} : Settings).validate = .ok () ∧ Point.corner.FromDegrees ∧ Fed cornerDrag ∧
      (∀ box, (Tracker.update { epsilon := defaultEpsilon } .corner .corner).box = some box →
        box.south ≤ Angle.quarterTurn ∧ box.north ≤ (outermost defaultEpsilon).north) ∧
      ((start {}).after cornerDrag).extent.InRange := by
  obtain ⟨tracker, -, -, session⟩ := reach_of_fed validate_default
  refine ⟨rfl, Point.fromDegrees_corner, fed_cornerDrag, ?_, (session cornerDrag fed_cornerDrag).1⟩
  intro box hb
  have reach := tracker [] .corner .corner Point.fromDegrees_corner Point.fromDegrees_corner box hb
  exact ⟨reach.south_le, reach.north_le_outermost⟩

/-- The box of the outermost corner passes the pole and the date line, and with fifteen decimal places its extent shows it. -/
theorem corner_beyond_globe :
    Point.corner.FromDegrees ∧
      (∃ box, (Tracker.update { epsilon := defaultEpsilon } .corner .corner).box = some box ∧
        ¬box.north ≤ Angle.quarterTurn ∧ ¬box.east ≤ Angle.halfTurn) ∧
      ({ precision := 15 } : Settings).validate = .ok () ∧ Fed cornerDrag ∧
      ∃ north south east west, ((start { precision := 15 }).after cornerDrag).extent = ⟨some north, some south, some east, some west⟩ ∧
        ¬north ≤ 90 ∧ ¬east ≤ 180 := by
  have passes : (Tracker.update { epsilon := defaultEpsilon } .corner .corner).box.any (fun box =>
      !decide (box.north ≤ Angle.quarterTurn) && !decide (box.east ≤ Angle.halfTurn)) = true := by decide +kernel
  have shows : ¬Extent.stored 15 (outermost defaultEpsilon).north ≤ 90 ∧ ¬Extent.stored 15 (outermost defaultEpsilon).east ≤ 180 := by
    decide +kernel
  obtain ⟨box, hb, h⟩ := (Option.any_eq_true _ _).1 passes
  rw [Bool.and_eq_true, Bool.not_eq_true', Bool.not_eq_true', decide_eq_false_iff_not, decide_eq_false_iff_not] at h
  exact ⟨Point.fromDegrees_corner, ⟨box, hb, h⟩, rfl, fed_cornerDrag, _, _, _, _,
    extent_cornerDrag { precision := 15 } (by decide +kernel), shows⟩

end Session

end GlobeDrag
