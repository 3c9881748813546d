import GlobeDrag.Proofs.Rectangle.Overflow
import GlobeDrag.Proofs.Session.Reach
import GlobeDrag.Proofs.Tracker.Repeat

/-!
# Positions without a box

A tracker gives no box for coordinates that are not finite, and they change nothing. It gives none either where widening carries a bound
past the largest double. By then the drag has been stepped, and if the anchor is new the last box has been dropped: such a position is
taken in, though there is nothing to draw.

Main statements: `Consistent.box_eq_none_iff` (which positions have no box), `tracker_eq_iff_of_box_eq_none` (when one of them changes
nothing) and `update_without_box`, which joins them.
-/

namespace GlobeDrag.Tracker

open Binary64
open Rectangle (Overflows)

variable {t : Tracker} {anchor current : Point}

/-- Of finite coordinates, those have no box whose widening overflows. -/
theorem Consistent.box_eq_none_iff (h : t.Consistent) (fε : t.epsilon.isFinite = true) (h0 : 0 ≤ value t.epsilon)
    (ha : anchor.isFinite = true) (hc : current.isFinite = true) :
    (t.update anchor current).box = none ↔ Overflows anchor current t.epsilon := by
  have turn : Angle.InTurn current.normalize.longitude := Angle.inTurn_normalize (Rectangle.isFinite_point hc).2
  have hd := (h.facing ha).step turn
  obtain ⟨flat, -⟩ := Rectangle.isFinite_point hd.isFinite_anchor
  obtain ⟨alat, -⟩ := Rectangle.isFinite_point ha
  obtain ⟨clat, -⟩ := Rectangle.isFinite_point hc
  have kept_anchor := (Bool.and_eq_true_iff.1 (anchor_update ha hc (drag_update (t := t) ha hc))).1
  have vlat := (beq_iff_value_eq (isNaN_of_isFinite flat) (isNaN_of_isFinite alat)).1 kept_anchor
  rw [box_update_eq ha hc, Option.filter_eq_none_iff]
  simp only [Option.some.injEq, forall_eq', Drag.box,
    Rectangle.isFinite_spanning_iff hd.isFinite_anchor (Drag.isFinite_normalize hc) hd.inTurn_anchor turn fε h0, not_not]
  exact ⟨.congr flat alat clat vlat, .congr alat flat clat vlat.symm⟩

/-- The box that is kept for a position is the last one, unless the drag in progress began elsewhere. -/
theorem kept_eq (t : Tracker) (anchor : Point) :
    (t.facing anchor).2.1 = if t.drag.all (·.anchor == anchor) then t.lastBox else none := by
  rw [facing]
  cases t.drag with
  | none => rfl
  | some d =>
    rw [Option.all_some]
    dsimp only
    split <;> rfl

/-- A position without a box leaves the tracker as it was exactly if it continues the drag in progress and does not change it. -/
theorem tracker_eq_iff_of_box_eq_none (ha : anchor.isFinite = true) (hc : current.isFinite = true)
    (hb : (t.update anchor current).box = none) :
    (t.update anchor current).tracker = t ↔
      ∃ d, t.drag = some d ∧ (d.anchor == anchor.normalize) = true ∧ d.step current.normalize = d := by
  constructor
  · intro same
    have hd := drag_update (t := t) ha hc
    have ends := anchor_update ha hc hd
    rw [same] at hd
    refine ⟨_, hd, ends, ?_⟩
    rcases t.facing_eq anchor.normalize with ⟨d, hdrag, -, hf⟩ | ⟨new, -⟩
    · rw [hd, Option.some.injEq] at hdrag
      rw [hdrag, ← hf, hdrag, hf]
    · rw [new _ hd] at ends
      cases ends
  · rintro ⟨d, hd, he, hs⟩
    rw [tracker_update ha hc, hb, facing_of_drag hd he, hs, ← hd]
    rfl

/-- After any calls on a tracker with settings that can be used, a position has no box exactly if it is not finite or its widening
overflows. In the first case the tracker stays as it was. In the second the drag takes the step, and the last box is dropped if the
anchor is new; the tracker stays as it was only if the step changes nothing in the drag in progress. A point of the globe always has a
box, unless the double of the angle overflows. -/
theorem update_without_box {settings : Settings} (valid : settings.validate = .ok ()) (inputs : List Input) (anchor current : Point) :
    let t := after { epsilon := settings.epsilon } inputs
    let u := t.update anchor current
    let finite := anchor.isFinite && current.isFinite
    (u.box = none ↔ finite = false ∨ Overflows anchor current settings.epsilon) ∧
    (finite = false → u.tracker = t) ∧
    (finite = true → Overflows anchor current settings.epsilon →
      u.tracker.drag = some ((t.facing anchor.normalize).1.step current.normalize) ∧
      u.tracker.lastBox = (if t.drag.all (·.anchor == anchor.normalize) then t.lastBox else none) ∧
      (u.tracker = t ↔ ∃ d, t.drag = some d ∧ (d.anchor == anchor.normalize) = true ∧ d.step current.normalize = d)) ∧
    (anchor.FromDegrees → current.FromDegrees → (2 * settings.epsilon).isFinite = true → ∃ box, u.box = some box) := by
  intro t u finite
  obtain ⟨fε, h0, -⟩ := Settings.of_validate valid
  obtain ⟨consistent, hε⟩ := (consistent_of_drag_eq_none (t := { epsilon := settings.epsilon }) rfl).after inputs
  have overflows (hf : anchor.isFinite = true ∧ current.isFinite = true) :
      u.box = none ↔ Overflows anchor current settings.epsilon := by
    rw [← show t.epsilon = settings.epsilon from hε] at fε h0 ⊢
    exact consistent.box_eq_none_iff fε h0.le hf.1 hf.2
  have ignored (hf : finite = false) : u = ⟨t, none, [.positionIgnored anchor current]⟩ := update_of_not_isFinite hf
  refine ⟨?_, ?_, ?_, ?_⟩
  · cases hf : finite with
    | false => exact iff_of_true (by rw [ignored hf]) (Or.inl rfl)
    | true =>
      rw [overflows (Bool.and_eq_true_iff.1 hf)]
      simp
  · intro hf
    rw [ignored hf]
  · intro hf beyond
    obtain ⟨ha, hc⟩ := Bool.and_eq_true_iff.1 hf
    have withheld := (overflows ⟨ha, hc⟩).2 beyond
    refine ⟨drag_update ha hc, ?_, tracker_eq_iff_of_box_eq_none ha hc withheld⟩
    rw [← kept_eq, show u.tracker = _ from tracker_update ha hc, show (t.update anchor current).box = _ from withheld]
    rfl
  · intro ha hc ht
    obtain ⟨fa, ga⟩ := ha.onGlobe_normalize
    obtain ⟨fc, gc⟩ := hc.onGlobe_normalize
    refine Option.ne_none_iff_exists'.1 fun withheld => ?_
    exact Rectangle.not_overflows_of_onGlobe ga gc fε h0.le ht ((overflows ⟨fa, fc⟩).1 withheld)

/-- Default settings, and a drag that goes on from another anchor, at the latitude of the largest double. -/
theorem update_without_box_default :
    let settings : Settings := {}
    let t := after { epsilon := settings.epsilon } [.update ⟨0, 0⟩ ⟨1, 1⟩]
    let u := t.update ⟨largest, 0⟩ ⟨largest, 0.5⟩
    settings.validate = .ok () ∧ Overflows ⟨largest, 0⟩ ⟨largest, 0.5⟩ settings.epsilon ∧
      u.box = none ∧ t.lastBox.isSome = true ∧ u.tracker.lastBox = none := by
  have beyond : Overflows ⟨largest, 0⟩ ⟨largest, 0.5⟩ ({} : Settings).epsilon := by decide +kernel
  obtain ⟨withheld, -, changed, -⟩ :=
    update_without_box Session.validate_default [.update ⟨0, 0⟩ ⟨1, 1⟩] ⟨largest, 0⟩ ⟨largest, 0.5⟩
  have last := (changed (by decide) beyond).2.1
  rw [if_neg (by decide +kernel)] at last
  exact ⟨Session.validate_default, beyond, withheld.2 (Or.inr beyond), by decide +kernel, last⟩

/-- Settings whose angle overflows when it is doubled: a tracker without a drag gives no box and has a drag afterwards. Default settings:
a position at the latitude of the largest double gives no box, and the last box of the drag in progress is lost. -/
theorem update_without_box_moves :
    let t : Tracker := { epsilon := 1e308 }
    let u := t.update ⟨0, 0⟩ ⟨0.1, 0.1⟩
    let t' := after { epsilon := defaultEpsilon } [.update ⟨0, 0⟩ ⟨1, 1⟩]
    let u' := t'.update ⟨largest, 0⟩ ⟨largest, 0.5⟩
    (({ epsilon := 1e308 } : Settings).validate = .ok () ∧ u.box = none ∧ t.isActive = false ∧ u.tracker.isActive = true) ∧
      ({} : Settings).validate = .ok () ∧ u'.box = none ∧ t'.lastBox.isSome = true ∧ u'.tracker.lastBox.isSome = false := by
  intro t u t' u'
  have largeAngle : u.box = none ∧ t.isActive = false ∧ u.tracker.isActive = true := by decide +kernel
  have largeLatitude : u'.box = none ∧ t'.lastBox.isSome = true ∧ u'.tracker.lastBox.isSome = false := by decide +kernel
  have valid : ({ epsilon := 1e308 } : Settings).validate = .ok () := (if_neg (by decide +kernel)).trans (if_neg (by decide))
  exact ⟨⟨valid, largeAngle⟩, rfl, largeLatitude⟩

end GlobeDrag.Tracker
