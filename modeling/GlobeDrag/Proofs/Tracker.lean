import GlobeDrag.Proofs.DateLine.Across
import GlobeDrag.Proofs.Rectangle.Spanning
import GlobeDrag.Tracker

/-!
# Runs of a tracker

Whatever calls a tracker has seen, it knows folded longitudes only and marks a drag as wrapping only while the pointer is across from
its anchor. The boxes that it gives out are therefore in order: south below north, and the eastern bound below the western one exactly
when the box wraps, also where it was widened.

Main statements: `Consistent.handle` and `Consistent.after` (the invariant), `box_update` (what a box given out is) and
`update_after_ordered` (the order of its bounds).
-/

namespace GlobeDrag

open Angle (InTurn inTurn_normalize)
open Binary64 DateLine
open Rectangle (isFinite_point)

/-! ## Drags -/

/-- What holds of a drag in progress: its longitudes are folded, and it is marked as wrapping only while the pointer is across from
the anchor. -/
structure Drag.Consistent (d : Drag) : Prop where
  isFinite_anchor : d.anchor.isFinite = true
  inTurn_anchor : InTurn d.anchor.longitude
  inTurn_last : ∀ last ∈ d.course.last, InTurn last
  across : d.course.crossing = true → ∃ last, d.course.last = some last ∧ Across d.anchor.longitude last

namespace Drag

variable {d : Drag} {anchor current : Point}

/-- Folding keeps a point finite. -/
theorem isFinite_normalize {p : Point} (h : p.isFinite = true) : p.normalize.isFinite = true := by
  obtain ⟨h1, h2⟩ := isFinite_point h
  exact Bool.and_eq_true_iff.2 ⟨h1, (inTurn_normalize h2).isFinite⟩

/-- A new drag is consistent. -/
theorem consistent_start (h : anchor.isFinite = true) : (start anchor.normalize).Consistent where
  isFinite_anchor := isFinite_normalize h
  inTurn_anchor := inTurn_normalize (isFinite_point h).2
  inTurn_last := by
    intro last hl
    cases hl
  across h := by cases h

/-- A folded position keeps a drag consistent. -/
theorem Consistent.step (h : d.Consistent) (hc : InTurn current.longitude) : (d.step current).Consistent where
  isFinite_anchor := h.isFinite_anchor
  inTurn_anchor := h.inTurn_anchor
  inTurn_last := by
    intro last hl
    rw [Drag.step, Course.last_step, Option.mem_some_iff] at hl
    rwa [← hl]
  across hcr := by
    refine ⟨current.longitude, Course.last_step _ _ _, ?_⟩
    exact Course.across_step_double (isNaN_of_isFinite h.inTurn_anchor.isFinite)
      (fun last hl => isNaN_of_isFinite (h.inTurn_last last hl).isFinite) (isNaN_of_isFinite hc.isFinite) h.across hcr

end Drag

/-! ## Trackers -/

namespace Tracker

/-- What holds of a tracker after any calls. -/
def Consistent (t : Tracker) : Prop :=
  ∀ d, t.drag = some d → d.Consistent

variable {t : Tracker} {anchor current : Point}

/-- Coordinates that are not finite change nothing. -/
theorem update_of_not_isFinite (h : (anchor.isFinite && current.isFinite) = false) :
    t.update anchor current = ⟨t, none, [.positionIgnored anchor current]⟩ := by
  rw [update, if_pos]
  rwa [← Bool.not_and, Bool.not_eq_true']

/-- Finite coordinates give the drag that faces the anchor a step. -/
theorem drag_update (ha : anchor.isFinite = true) (hc : current.isFinite = true) :
    (t.update anchor current).tracker.drag = some ((t.facing anchor.normalize).1.step current.normalize) := by
  rw [update, if_neg (by rw [ha, hc]; decide)]
  dsimp only
  split <;> rfl

/-- The box of that step is given out if it is finite. -/
theorem box_update (ha : anchor.isFinite = true) (hc : current.isFinite = true) (box : Rectangle) :
    (t.update anchor current).box = some box ↔
      box = ((t.facing anchor.normalize).1.step current.normalize).box current.normalize t.epsilon ∧ box.isFinite = true := by
  rw [update, if_neg (by rw [ha, hc]; decide)]
  dsimp only
  split
  · next h =>
    rw [Option.some.injEq, eq_comm, iff_self_and]
    rintro rfl
    exact h
  · next h =>
    refine iff_of_false (by simp) ?_
    rintro ⟨rfl, h'⟩
    exact h h'

/-- Where a box is given out, the coordinates were finite. -/
theorem isFinite_of_box {box : Rectangle} (h : (t.update anchor current).box = some box) :
    anchor.isFinite = true ∧ current.isFinite = true := by
  by_contra hn
  rw [update_of_not_isFinite (by rwa [← Bool.not_eq_true, Bool.and_eq_true])] at h
  cases h

/-- An update keeps the threshold. -/
theorem epsilon_update (t : Tracker) (anchor current : Point) : (t.update anchor current).tracker.epsilon = t.epsilon := by
  rw [update]
  split
  · rfl
  · dsimp only
    split <;> rfl

/-- The drag in progress faces its own anchor, and its last box is kept. -/
theorem facing_of_drag {d : Drag} (hd : t.drag = some d) (same : (d.anchor == anchor) = true) :
    t.facing anchor = (d, t.lastBox, []) := by
  rw [facing, hd]
  exact if_pos same

/-- The drag that faces an anchor is the one in progress or a new one. -/
theorem facing_eq (t : Tracker) (anchor : Point) :
    (∃ d, t.drag = some d ∧ (d.anchor == anchor) = true ∧ (t.facing anchor).1 = d) ∨
      ((∀ d, t.drag = some d → (d.anchor == anchor) = false) ∧ (t.facing anchor).1 = .start anchor) := by
  rw [facing]
  cases h : t.drag with
  | none => exact Or.inr ⟨nofun, rfl⟩
  | some d =>
    dsimp only
    cases hd : d.anchor == anchor with
    | true => exact Or.inl ⟨d, rfl, hd, rfl⟩
    | false =>
      right
      refine ⟨?_, rfl⟩
      intro d' hd'
      cases hd'
      exact hd

/-- Facing an anchor keeps a tracker consistent. -/
theorem Consistent.facing (h : t.Consistent) (ha : anchor.isFinite = true) : (t.facing anchor.normalize).1.Consistent := by
  rcases t.facing_eq anchor.normalize with ⟨d, hd, -, hf⟩ | ⟨-, hf⟩ <;> rw [hf]
  · exact h d hd
  · exact Drag.consistent_start ha

/-- A position leaves the drag consistent. -/
theorem Consistent.update (h : t.Consistent) (anchor current : Point) : (t.update anchor current).tracker.Consistent := by
  by_cases hf : anchor.isFinite = true ∧ current.isFinite = true
  · intro d hd
    rw [drag_update hf.1 hf.2, Option.some.injEq] at hd
    rw [← hd]
    exact (h.facing hf.1).step (inTurn_normalize (isFinite_point hf.2).2)
  · rw [update_of_not_isFinite (by rwa [← Bool.not_eq_true, Bool.and_eq_true])]
    exact h

/-- A tracker without a drag is consistent. -/
theorem consistent_of_drag_eq_none (h : t.drag = none) : t.Consistent := by
  intro d hd
  rw [h] at hd
  cases hd

/-- A call leaves the drag consistent. -/
theorem Consistent.handle (h : t.Consistent) (i : Input) : (t.handle i).Consistent := by
  cases i with
  | update anchor current => exact h.update anchor current
  | finish => exact consistent_of_drag_eq_none rfl
  | reset => exact consistent_of_drag_eq_none rfl

theorem epsilon_handle (t : Tracker) (i : Input) : (t.handle i).epsilon = t.epsilon := by
  cases i with
  | update anchor current => exact t.epsilon_update anchor current
  | finish => rfl
  | reset => rfl

/-- After any calls the drag is consistent, and the angle is the one that the tracker began with. -/
theorem Consistent.after (h : t.Consistent) (inputs : List Input) :
    (t.after inputs).Consistent ∧ (t.after inputs).epsilon = t.epsilon := by
  induction inputs generalizing t with
  | nil => exact ⟨h, rfl⟩
  | cons i rest ih =>
    obtain ⟨h1, h2⟩ := ih (h.handle i)
    exact ⟨h1, h2.trans (t.epsilon_handle i)⟩

/-- So it is for a tracker that began with an angle of at most one radian. -/
theorem consistent_after_small {epsilon : Float} (h0 : 0 < epsilon) (h1 : epsilon ≤ 1) (inputs : List Input) :
    (after { epsilon } inputs).Consistent ∧ (after { epsilon } inputs).epsilon = epsilon ∧ epsilon.isFinite = true ∧
      0 < value epsilon ∧ value epsilon ≤ 1 := by
  obtain ⟨consistent, hε⟩ := (consistent_of_drag_eq_none (t := { epsilon }) rfl).after inputs
  obtain ⟨-, nε⟩ := isNaN_of_lt h0
  have v0 := (lt_iff_value_lt (isNaN_of_isFinite isFinite_zero) nε).1 h0
  have v1 := value_le_of_le h1
  have fε := isFinite_of_mem_Icc isFinite_zero isFinite_one nε v0.le v1
  rw [value_zero] at v0
  rw [value_one] at v1
  exact ⟨consistent, hε, fε, v0, v1⟩

/-! ## Boxes -/

/-- A box given out lies between the anchor of the drag and the position, wrapping as the drag says. -/
theorem Consistent.box_eq (h : t.Consistent) {box : Rectangle} (hb : (t.update anchor current).box = some box) :
    ∃ d : Drag, d.Consistent ∧ (t.update anchor current).tracker.drag = some d ∧
      d.course.last = some current.normalize.longitude ∧ current.normalize.isFinite = true ∧
      InTurn current.normalize.longitude ∧ box.isFinite = true ∧
      box = .spanning d.anchor current.normalize d.course.crossing t.epsilon := by
  obtain ⟨ha, hc⟩ := isFinite_of_box hb
  obtain ⟨heq, hf⟩ := (box_update ha hc box).1 hb
  have hturn := inTurn_normalize (isFinite_point hc).2
  exact ⟨_, (h.facing ha).step hturn, drag_update ha hc, Course.last_step _ _ _, Drag.isFinite_normalize hc, hturn, hf, heq⟩

/-- Where the drag is marked as wrapping, the position is across from its anchor. -/
theorem Consistent.across_box (h : t.Consistent) {box : Rectangle} (hb : (t.update anchor current).box = some box) :
    ∃ d : Drag, d.Consistent ∧ (t.update anchor current).tracker.drag = some d ∧
      ((t.update anchor current).tracker.crossing = true → Across d.anchor.longitude current.normalize.longitude) ∧
      box = .spanning d.anchor current.normalize (t.update anchor current).tracker.crossing t.epsilon := by
  obtain ⟨d, hd, hdrag, hlast, -, -, -, rfl⟩ := h.box_eq hb
  have hcr : (t.update anchor current).tracker.crossing = d.course.crossing := by rw [crossing, hdrag]; rfl
  rw [hcr]
  refine ⟨d, hd, hdrag, ?_, rfl⟩
  intro hc
  obtain ⟨last, hl, ha⟩ := hd.across hc
  rw [hlast, Option.some.injEq] at hl
  rwa [hl]

/-- The boxes of a consistent tracker are in order. -/
theorem Consistent.ordered_box (h : t.Consistent) (hε : t.epsilon.isFinite = true) (h0 : 0 ≤ value t.epsilon)
    (h1 : value t.epsilon ≤ 1) {box : Rectangle} (hb : (t.update anchor current).box = some box) :
    box.Ordered (t.update anchor current).tracker.crossing := by
  obtain ⟨d, hd, -, across, rfl⟩ := h.across_box hb
  have hc := (isFinite_of_box hb).2
  exact Rectangle.ordered_spanning hd.isFinite_anchor (Drag.isFinite_normalize hc) hd.inTurn_anchor
    (inTurn_normalize (isFinite_point hc).2) across hε h0 h1

/-! ## When a drag does not wrap -/

/-- The first move of a drag does not wrap. -/
theorem crossing_update_of_new (ha : anchor.isFinite = true) (hc : current.isFinite = true)
    (new : ∀ d, t.drag = some d → (d.anchor == anchor.normalize) = false) :
    (t.update anchor current).tracker.crossing = false := by
  have hf : (t.facing anchor.normalize).1 = .start anchor.normalize := by
    rcases t.facing_eq anchor.normalize with ⟨d, hd, he, -⟩ | ⟨-, hf⟩
    · rw [new d hd] at he
      cases he
    · exact hf
  rw [crossing, drag_update ha hc, hf]
  rfl

/-- Anchors that count as equal lie on the same side. -/
theorem side_eq_of_beq {p q : Point} (hp : InTurn p.longitude) (hq : InTurn q.longitude) (h : (p == q) = true) :
    Side.of p.longitude = Side.of q.longitude := by
  have np := isNaN_of_isFinite hp.isFinite
  have nq := isNaN_of_isFinite hq.isFinite
  have hl : (p.longitude == q.longitude) = true := (Bool.and_eq_true_iff.1 h).2
  rw [← Side.of_value np, ← Side.of_value nq, (beq_iff_value_eq np nq).1 hl]

/-- A position on the side of the anchor does not wrap. -/
theorem Consistent.crossing_update_of_side (h : t.Consistent) (ha : anchor.isFinite = true) (hc : current.isFinite = true)
    {side : Side} (sa : Side.of anchor.normalize.longitude = some side) (sc : Side.of current.normalize.longitude = some side) :
    (t.update anchor current).tracker.crossing = false := by
  have hd := h.facing ha
  have hs : Side.of (t.facing anchor.normalize).1.anchor.longitude = some side := by
    rcases t.facing_eq anchor.normalize with ⟨d, hdrag, he, hf⟩ | ⟨-, hf⟩ <;> rw [hf]
    · rw [side_eq_of_beq (h d hdrag).inTurn_anchor (inTurn_normalize (isFinite_point ha).2) he, sa]
    · exact sa
  rw [crossing, drag_update ha hc]
  exact Course.crossing_step_of_side_double (isNaN_of_isFinite hd.inTurn_anchor.isFinite)
    (fun last hl => isNaN_of_isFinite (hd.inTurn_last last hl).isFinite)
    (isNaN_of_isFinite (inTurn_normalize (isFinite_point hc).2).isFinite) hs sc

/-! ## Runs -/

/-- After any calls on a tracker whose angle is at most one radian, and for any further position: a drag is marked as wrapping only
across from its anchor, the box given out is in order, and neither the first position of a drag nor one on the side of the anchor
wraps. -/
theorem update_after_ordered {epsilon : Float} (h0 : 0 < epsilon) (h1 : epsilon ≤ 1) (inputs : List Input)
    (anchor current : Point) :
    let t := after { epsilon } inputs
    let u := t.update anchor current
    (∀ d, t.drag = some d → d.course.crossing = true →
      ∃ last, d.course.last = some last ∧ Across d.anchor.longitude last) ∧
    (∀ box, u.box = some box → box.Ordered u.tracker.crossing) ∧
    (anchor.isFinite = true → current.isFinite = true → (∀ d, t.drag = some d → (d.anchor == anchor.normalize) = false) →
      u.tracker.crossing = false) ∧
    (anchor.isFinite = true → current.isFinite = true → ∀ side, Side.of anchor.normalize.longitude = some side →
      Side.of current.normalize.longitude = some side → u.tracker.crossing = false) := by
  intro t u
  obtain ⟨-, nε⟩ := isNaN_of_lt h0
  have v0 := (lt_iff_value_lt (isNaN_of_isFinite isFinite_zero) nε).1 h0
  have v1 := (le_iff_value_le nε (isNaN_of_isFinite isFinite_one)).1 h1
  have fε := isFinite_of_mem_Icc isFinite_zero isFinite_one nε v0.le v1
  rw [value_zero] at v0
  rw [value_one] at v1
  obtain ⟨hc, hε⟩ := (consistent_of_drag_eq_none (t := { epsilon }) rfl).after inputs
  refine ⟨?_, ?_, ?_, ?_⟩
  · intro d hd
    exact (hc d hd).across
  · intro box hb
    exact hc.ordered_box (hε ▸ fε) (hε ▸ v0.le) (hε ▸ v1) hb
  · intro ha hcf new
    exact crossing_update_of_new ha hcf new
  · intro ha hcf side sa sc
    exact hc.crossing_update_of_side ha hcf sa sc

/-- The default angle is one such, and a drag over the date line gives a box that wraps. -/
theorem update_after_ordered_default :
    ((0 : Float) < defaultEpsilon ∧ defaultEpsilon ≤ 1) ∧
      let u := (after { epsilon := defaultEpsilon } [.update ⟨0, 3⟩ ⟨0.1, 3.1⟩]).update ⟨0, 3⟩ ⟨0.1, -3.1⟩
      ∃ box, u.box = some box ∧ u.tracker.crossing = true ∧ box.Ordered true := by
  refine ⟨by decide +kernel, ?_⟩
  intro u
  have given : u.box.isSome = true := by decide +kernel
  have wraps : u.tracker.crossing = true := by decide +kernel
  obtain ⟨box, hb⟩ := Option.isSome_iff_exists.1 given
  refine ⟨box, hb, wraps, wraps ▸ ?_⟩
  exact (update_after_ordered (by decide +kernel) (by decide +kernel) [.update ⟨0, 3⟩ ⟨0.1, 3.1⟩] ⟨0, 3⟩ ⟨0.1, -3.1⟩).2.1 box hb

end Tracker

end GlobeDrag
