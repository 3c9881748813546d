import GlobeDrag.Proofs.Binary64.Monotone
import GlobeDrag.Proofs.Binary64.Successor
import GlobeDrag.Rectangle

/-!
# Widening a span

An upper bound is only ever pushed up, and no further than the first double that is far enough.

Main statements: `le_value_climb` and `le_value_widen` (the bound does not go down), `value_climb_le` (a bound that is far enough is
not passed), `value_widen_mono` (widening keeps the order), `target_le_widen_sub` (the result is far enough), and `isFinite_widen_iff` (when
it is finite) with `isFinite_widen_iff_of_few_turns` (on the globe only the angle decides).
-/

namespace GlobeDrag.Rectangle

open Binary64

variable {low high target b epsilon : Float}

/-- A climb does not lead down. -/
theorem le_value_climb (low target : Float) (h : high.isNaN = false) :
    (climb low target high).isNaN = false ∧ value high ≤ value (climb low target high) := by
  fun_induction climb low target high with
  | case1 high hlt next hnext ih =>
    have hn := (rank_successor? hnext).1
    obtain ⟨h1, h2⟩ := ih hn
    exact ⟨h1, (successor?_least h hnext).1.le.trans h2⟩
  | case2 high hlt hnext => exact ⟨h, le_rfl⟩
  | case3 high hlt => exact ⟨h, le_rfl⟩

/-- Differences of equal values compare alike. -/
theorem sub_lt_congr {low' : Float} (hl : low.isFinite = true) (hl' : low'.isFinite = true) (hh : high.isFinite = true)
    (hb : b.isFinite = true) (hlow : value low = value low') (hv : value high = value b) (h : high - low < target) :
    b - low' < target := by
  obtain ⟨-, nt⟩ := isNaN_of_lt h
  have h1 := isNearest_sub hh hl
  have h2 := isNearest_sub hb hl'
  rw [lt_iff_value_lt h2.isNaN_eq nt, h2.value_eq, ← hv, ← hlow, ← h1.value_eq]
  exact (lt_iff_value_lt h1.isNaN_eq nt).1 h

/-- A climb does not pass a bound that is far enough. -/
theorem value_climb_le (hl : low.isFinite = true) (hb : b.isFinite = true) (far : ¬b - low < target) (hh : high.isFinite = true)
    (hle : value high ≤ value b) : value (climb low target high) ≤ value b := by
  fun_induction climb low target high with
  | case1 high hlt next hnext ih =>
    have hn := (rank_successor? hnext).1
    obtain ⟨h1, h2⟩ := successor?_least (isNaN_of_isFinite hh) hnext
    have hne : value high ≠ value b := fun he => far (sub_lt_congr hl hl hh hb rfl he hlt)
    have hnb := h2 b (isNaN_of_isFinite hb) (lt_of_le_of_ne hle hne)
    exact ih (isFinite_of_mem_Icc hh hb hn h1.le hnb) hnb
  | case2 high hlt hnext => exact hle
  | case3 high hlt => exact hle

/-- A climb that ends at a finite double ends far enough. -/
theorem far_climb (hf : (climb low target high).isFinite = true) : ¬climb low target high - low < target := by
  fun_induction climb low target high with
  | case1 high hlt next hnext ih => exact ih hf
  | case2 high hlt hnext => exact absurd hnext (successor?_ne_none hf)
  | case3 high hlt => exact hlt

/-! ## The whole push -/

/-- Twice a positive angle is a number that is not negative. -/
theorem zero_le_target (he : epsilon.isFinite = true) (h0 : 0 ≤ value epsilon) :
    (2 * epsilon).isNaN = false ∧ 0 ≤ value (2 * epsilon) := by
  have h2 := isNearest_mul (show (2 : Float).isFinite = true by decide) he
  have ht : value 0 ≤ value (2 * epsilon) := by
    refine h2.le_value isFinite_zero ?_
    rw [value_zero]
    exact mul_nonneg (by decide +kernel) h0
  exact ⟨h2.isNaN_eq, value_zero ▸ ht⟩

/-- A bound pushed up by twice a positive angle is not below where it was. -/
theorem le_value_add_target (hh : high.isFinite = true) (he : epsilon.isFinite = true) (h0 : 0 ≤ value epsilon) :
    (high + 2 * epsilon).isNaN = false ∧ value high ≤ value (high + 2 * epsilon) := by
  obtain ⟨nt, ht⟩ := zero_le_target he h0
  cases hf : (2 * epsilon).isFinite with
  | true =>
    have hs := isNearest_add hh hf
    exact ⟨hs.isNaN_eq, hs.le_value hh (by linarith)⟩
  | false =>
    obtain ⟨h3, h4⟩ := value_add_of_infinite hh nt hf
    refine ⟨h3, ?_⟩
    rw [h4, value_of_infinite nt hf isFinite_zero (value_zero.trans_le ht)]
    exact (abs_lt.1 (abs_value_lt hh)).2.le

/-- Widening does not lead down. -/
theorem le_value_widen (low : Float) (hh : high.isFinite = true) (he : epsilon.isFinite = true) (h0 : 0 ≤ value epsilon) :
    (widen low high epsilon).isNaN = false ∧ value high ≤ value (widen low high epsilon) := by
  obtain ⟨h1, h2⟩ := le_value_add_target hh he h0
  obtain ⟨h3, h4⟩ := le_value_climb low (2 * epsilon) h1
  exact ⟨h3, h2.trans h4⟩

/-- Where there is room for twice the angle below `b`, widening does not pass `b`. -/
theorem value_widen_le_of_room (hl : low.isFinite = true) (hh : high.isFinite = true) (hb : b.isFinite = true)
    (he : epsilon.isFinite = true) (h0 : 0 ≤ value epsilon) (ht : (2 * epsilon).isFinite = true) (hle : value low ≤ value high)
    (room : value high + value (2 * epsilon) ≤ value b) : value (widen low high epsilon) ≤ value b := by
  obtain ⟨ns, les⟩ := le_value_add_target hh he h0
  have start := (isNearest_add hh ht).value_le hb room
  have fs := isFinite_of_mem_Icc hh hb ns les start
  refine value_climb_le hl hb ?_ fs start
  have wide := isNearest_sub hb hl
  rw [lt_iff_value_lt wide.isNaN_eq (isNaN_of_isFinite ht), not_lt]
  exact wide.le_value ht (by linarith)

/-- Where a widened bound is finite, twice the angle is. -/
theorem isFinite_target (hh : high.isFinite = true) (he : epsilon.isFinite = true) (h0 : 0 ≤ value epsilon)
    (h : (widen low high epsilon).isFinite = true) : (2 * epsilon).isFinite = true := by
  obtain ⟨nt, ht⟩ := zero_le_target he h0
  cases hf : (2 * epsilon).isFinite with
  | true => rfl
  | false =>
    obtain ⟨hn, hv⟩ := value_add_of_infinite hh nt hf
    have up := (le_value_climb low (2 * epsilon) hn).2
    rw [hv, value_of_infinite nt hf isFinite_zero (value_zero.trans_le ht)] at up
    exact absurd (abs_lt.1 (abs_value_lt h)).2 (not_lt.2 up)

/-- A widened bound is finite exactly if the push does not overflow and the largest double is far enough to end the climb. -/
theorem isFinite_widen_iff (hl : low.isFinite = true) (hh : high.isFinite = true) (he : epsilon.isFinite = true)
    (h0 : 0 ≤ value epsilon) :
    (widen low high epsilon).isFinite = true ↔ (high + 2 * epsilon).isFinite = true ∧ ¬largest - low < 2 * epsilon := by
  obtain ⟨ns, up⟩ := le_value_add_target hh he h0
  obtain ⟨nw, climbs⟩ := le_value_climb low (2 * epsilon) ns
  have below : ∀ {x : Float}, x.isFinite = true → value x ≤ value largest := fun hx => (abs_le.1 (abs_value_le_largest hx)).2
  constructor
  · intro hf
    have ht := isNaN_of_isFinite (isFinite_target hh he h0 hf)
    refine ⟨isFinite_of_mem_Icc hh hf ns up climbs, ?_⟩
    have far : ¬widen low high epsilon - low < 2 * epsilon := far_climb hf
    have reached := isNearest_sub hf hl
    have most := isNearest_sub isFinite_largest hl
    rw [lt_iff_value_lt reached.isNaN_eq ht, not_lt] at far
    rw [lt_iff_value_lt most.isNaN_eq ht, not_lt]
    exact far.trans (reached.value_le_value most (sub_le_sub_right (below hf) _))
  · rintro ⟨fs, far⟩
    exact isFinite_of_mem_Icc fs isFinite_largest nw climbs (value_climb_le hl isFinite_largest far fs (below fs))

/-- Widening keeps the order. -/
theorem value_widen_mono {low' high' : Float} (hl : low.isFinite = true) (hl' : low'.isFinite = true) (hh : high.isFinite = true)
    (hh' : high'.isFinite = true) (he : epsilon.isFinite = true) (h0 : 0 ≤ value epsilon) (hlow : value low ≤ value low')
    (hhigh : value high ≤ value high') : value (widen low high epsilon) ≤ value (widen low' high' epsilon) := by
  obtain ⟨nw, -⟩ := le_value_widen low hh he h0
  obtain ⟨nw', up⟩ := le_value_widen low' hh' he h0
  cases hf : (widen low' high' epsilon).isFinite with
  | false =>
    rw [value_of_infinite nw' hf hh' up]
    exact (abs_le.1 (abs_value_le_limit nw)).2
  | true =>
    have ht := isFinite_target hh' he h0 hf
    obtain ⟨ns, les⟩ := le_value_add_target hh he h0
    have top : value (high' + 2 * epsilon) ≤ value (widen low' high' epsilon) :=
      (le_value_climb low' (2 * epsilon) (le_value_add_target hh' he h0).1).2
    have start : value (high + 2 * epsilon) ≤ value (widen low' high' epsilon) :=
      ((isNearest_add hh ht).value_le_value (isNearest_add hh' ht) (by linarith)).trans top
    have fs := isFinite_of_mem_Icc hh hf ns les start
    refine value_climb_le hl hf ?_ fs start
    have near := isNearest_sub hf hl'
    have wide := isNearest_sub hf hl
    have far : ¬widen low' high' epsilon - low' < 2 * epsilon := far_climb hf
    rw [lt_iff_value_lt near.isNaN_eq (isNaN_of_isFinite ht), not_lt] at far
    rw [lt_iff_value_lt wide.isNaN_eq (isNaN_of_isFinite ht), not_lt]
    exact far.trans (near.value_le_value wide (by linarith))

/-- A widened bound is far enough, also where it is carried to infinity. -/
theorem target_le_widen_sub (hl : low.isFinite = true) (hh : high.isFinite = true) (he : epsilon.isFinite = true)
    (h0 : 0 ≤ value epsilon) : 2 * epsilon ≤ widen low high epsilon - low := by
  obtain ⟨nt, -⟩ := zero_le_target he h0
  obtain ⟨nw, up⟩ := le_value_widen low hh he h0
  cases hf : (widen low high epsilon).isFinite with
  | true =>
    have span := isNearest_sub hf hl
    have far : ¬widen low high epsilon - low < 2 * epsilon := far_climb hf
    rwa [lt_iff_value_lt span.isNaN_eq nt, not_lt, ← le_iff_value_le nt span.isNaN_eq] at far
  | false =>
    obtain ⟨nd, vd⟩ := value_sub_of_infinite nw hf hl
    rw [le_iff_value_le nt nd, vd, value_of_infinite nw hf hh up]
    exact (abs_le.1 (abs_value_le_limit nt)).2

/-! ## Angles beside the largest double -/

theorem value_10 : value 10 = 10 := (value_ofNat 10 (by decide)).2

theorem value_neg_10 : value (-10) = -10 := by rw [value_neg, value_10]

/-- Angles of no more than a few turns are lost when they are added to the largest double or taken from it. -/
theorem lost_beside_largest {x : Float} (hx : x.isFinite = true) (h1 : -10 ≤ value x) (h2 : value x ≤ 10) :
    value largest ≤ value (largest - x) ∧ (largest + x).isFinite = true ∧ (-largest + x).isFinite = true := by
  rw [← value_neg_10] at h1
  rw [← value_10] at h2
  have most := isFinite_largest
  have least : (-largest).isFinite = true := (isFinite_neg _).trans most
  have ten : (10 : Float).isFinite = true ∧ (-10 : Float).isFinite = true := by decide
  have lost : value (largest - 10) = value largest := by decide +kernel
  have above : (largest + -10).isFinite = true ∧ (largest + 10).isFinite = true := by decide +kernel
  have below : (-largest + -10).isFinite = true ∧ (-largest + 10).isFinite = true := by decide +kernel
  have hs := isNearest_add most hx
  have hs' := isNearest_add least hx
  refine ⟨?_, ?_, ?_⟩
  · rw [← lost]
    exact (isNearest_sub most ten.1).value_le_value (isNearest_sub most hx) (sub_le_sub_left h2 _)
  · exact isFinite_of_mem_Icc above.1 above.2 hs.isNaN_eq
      ((isNearest_add most ten.2).value_le_value hs (add_le_add_right h1 _))
      (hs.value_le_value (isNearest_add most ten.1) (add_le_add_right h2 _))
  · exact isFinite_of_mem_Icc below.1 below.2 hs'.isNaN_eq
      ((isNearest_add least ten.2).value_le_value hs' (add_le_add_right h1 _))
      (hs'.value_le_value (isNearest_add least ten.1) (add_le_add_right h2 _))

/-- Between bounds of no more than a few turns, a widened bound is finite exactly if twice the angle is. -/
theorem isFinite_widen_iff_of_few_turns (hl : low.isFinite = true) (hh : high.isFinite = true) (le_low : -10 ≤ value low)
    (low_le : value low ≤ 10) (le_high : -10 ≤ value high) (high_le : value high ≤ 10) (he : epsilon.isFinite = true)
    (h0 : 0 ≤ value epsilon) : (widen low high epsilon).isFinite = true ↔ (2 * epsilon).isFinite = true := by
  obtain ⟨lost, -, -⟩ := lost_beside_largest hl le_low low_le
  obtain ⟨-, above, below⟩ := lost_beside_largest hh le_high high_le
  refine ⟨isFinite_target hh he h0, ?_⟩
  intro ht
  rw [isFinite_widen_iff hl hh he h0]
  have hs := isNearest_add hh ht
  have most := isNearest_sub isFinite_largest hl
  constructor
  · refine isFinite_iff.2 ⟨hs.isNaN_eq, ?_⟩
    rw [hs.value_eq, add_comm, ← (isNearest_add ht hh).value_eq]
    exact abs_value_lt (isFinite_add ht above below)
  · rw [lt_iff_value_lt most.isNaN_eq (isNaN_of_isFinite ht), not_lt]
    exact (abs_le.1 (abs_value_le_largest ht)).2.trans lost

end GlobeDrag.Rectangle
