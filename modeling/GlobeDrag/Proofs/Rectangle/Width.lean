import GlobeDrag.Proofs.Binary64.Difference
import GlobeDrag.Proofs.Rectangle.Contains
import GlobeDrag.Proofs.Rectangle.Guard

/-!
# The width of a box over the date line

The width of a box over the date line is summed in three ways: the guard measures `east + fullTurn - west`, widening
`east - (west - fullTurn)`, and `width` is `east - west + fullTurn`. Without rounding they are equal. On narrow boxes the first two are not
rounded, but the last one passes through a number of more than four radians and is rounded to a multiple of `2 ^ (-50)`.

Main statements: `IsOver.value_width` (what `width` comes to), `IsOver.value_width_lt_iff` (when it is below an angle that the exact width
is not below) and `widthMeets_spanning` (how the width of a box between two points stands to what the guard asks).
-/

namespace GlobeDrag.Rectangle

open Angle Binary64 DateLine

/-- A box lies over the date line: both bounds are within half a turn of the prime meridian, the eastern one below the western one. -/
structure IsOver (r : Rectangle) : Prop where
  isFinite_east : r.east.isFinite = true
  isFinite_west : r.west.isFinite = true
  le_east : -value halfTurn ≤ value r.east
  west_le : value r.west ≤ value halfTurn
  east_lt_west : value r.east < value r.west

/-- The exact width is the first multiple of `2 ^ (-51)` from the angle `b` upward, and it is midway between two multiples of `2 ^ (-50)`
the lower one of which is even. -/
def FallsShort (r : Rectangle) (b : ℚ) : Prop :=
  r.exactWidth = ⌈b / 2 ^ (-51 : ℤ)⌉ * 2 ^ (-51 : ℤ) ∧ ⌈b / 2 ^ (-51 : ℤ)⌉ % 4 = 1

/-! ## Sums of a few radians -/

section Sums

variable {x z : Float} {q : ℚ}

theorem value_8 : ((8 : Float).isFinite = true ∧ value 8 = 8) ∧ (-8 : Float).isFinite = true ∧ value (-8) = -8 := by
  rw [isFinite_neg, value_neg]
  exact ⟨value_ofNat 8 (by decide), (value_ofNat 8 (by decide)).1, congrArg _ (value_ofNat 8 (by decide)).2⟩

/-- A sum of less than eight radians is rounded by at most `2 ^ (-51)`. -/
theorem rounded_of_abs_lt (h : IsNearest z q) (hq : |q| < 8) :
    z.isFinite = true ∧ value z = nearest q ∧ |value z - q| ≤ 2 ^ (-51 : ℤ) := by
  obtain ⟨eight, neg⟩ := value_8
  obtain ⟨h1, h2⟩ := abs_lt.1 hq
  obtain ⟨finite, rounded, -⟩ := h.of_mem_Icc neg.1 eight.1 (by rw [neg.2]; exact h1.le) (by rw [eight.2]; exact h2.le)
  refine ⟨finite, rounded, ?_⟩
  rw [rounded]
  exact (abs_nearest_sub_le_of_lt (e := -50) (by norm_num; exact hq) (by norm_num)).trans_eq (by norm_num)

/-- A sum that begins with such a sum is rounded twice. -/
theorem abs_value_sub_le_of_near {q' : ℚ} (h : IsNearest z q') (near : |q' - q| ≤ 2 ^ (-51 : ℤ)) (hq : |q| < 7) :
    |value z - q| ≤ 2 ^ (-50 : ℤ) := by
  obtain ⟨n1, n2⟩ := abs_le.1 near
  obtain ⟨q1, q2⟩ := abs_lt.1 hq
  have small : (2 : ℚ) ^ (-51 : ℤ) < 1 := by norm_num
  obtain ⟨-, -, again⟩ := rounded_of_abs_lt h (abs_lt.2 ⟨by linarith, by linarith⟩)
  calc |value z - q| = |value z - q' + (q' - q)| := by rw [sub_add_sub_cancel]
    _ ≤ |value z - q'| + |q' - q| := abs_add_le _ _
    _ ≤ 2 ^ (-51 : ℤ) + 2 ^ (-51 : ℤ) := add_le_add again near
    _ = 2 ^ (-50 : ℤ) := by norm_num

/-- A sum of at most four radians that comes to a multiple of `2 ^ (-51)` is not rounded. -/
theorem exact_of_steps {n : ℤ} (h : IsNearest z q) (hn : q = n * 2 ^ (-51 : ℤ)) (hq : |q| ≤ 4) : z.isFinite = true ∧ value z = q := by
  obtain ⟨finite, rounded, -⟩ := rounded_of_abs_lt h (hq.trans_lt (by norm_num))
  have bits : |(n : ℚ)| ≤ 2 ^ 53 := by
    rw [hn, abs_mul, abs_of_pos (two_zpow_pos _), ← le_div_iff₀ (two_zpow_pos _)] at hq
    exact hq.trans_eq (by norm_num)
  exact ⟨finite, rounded.trans (nearest_of_onGrid ⟨n, -51, by exact_mod_cast bits, by norm_num, hn⟩)⟩

/-- From two radians on, longitudes are multiples of `2 ^ (-51)`. -/
theorem exists_steps (h : 2 ≤ |value x|) : ∃ n : ℤ, value x = n * 2 ^ (-51 : ℤ) :=
  (onGrid_value x).exists_mul_of_le (h.trans_eq' (by norm_num))

/-- So is the turn. -/
theorem value_fullTurn_steps : value fullTurn = (14148475504056880 : ℤ) * 2 ^ (-51 : ℤ) := by
  rw [value_fullTurn, value_halfTurn]
  norm_num

end Sums

/-! ## The three sums -/

namespace IsOver

variable {r : Rectangle} {b : Float}

/-- Over the date line a full turn is added. -/
theorem exactWidth_eq (h : r.IsOver) : r.exactWidth = value r.east - value r.west + value fullTurn :=
  arc_of_lt h.east_lt_west

/-- It is added last, on doubles. -/
theorem width_eq (h : r.IsOver) : r.width = r.east - r.west + fullTurn := by
  have wraps : r.crossesDateLine = true :=
    decide_eq_true ((lt_iff_value_lt (isNaN_of_isFinite h.isFinite_east) (isNaN_of_isFinite h.isFinite_west)).2 h.east_lt_west)
  rw [width, wraps, if_pos rfl]

/-- The bounds of a narrow box are far from the prime meridian. -/
theorem far (h : r.IsOver) : value r.east ≤ r.exactWidth - value halfTurn ∧ value halfTurn - r.exactWidth ≤ value r.west := by
  have width := h.exactWidth_eq
  have east := h.le_east
  have west := h.west_le
  have full := value_fullTurn
  constructor <;> linarith

/-- A box is not of negative width. -/
theorem exactWidth_nonneg (h : r.IsOver) : 0 ≤ r.exactWidth := by
  obtain ⟨east, -⟩ := h.far
  linarith [h.le_east]

/-- The difference that `width` begins with. -/
theorem value_difference (h : r.IsOver) :
    (r.east - r.west).isFinite = true ∧ value (r.east - r.west) = nearest (r.exactWidth - value fullTurn) ∧
      |value (r.east - r.west) - (r.exactWidth - value fullTurn)| ≤ 2 ^ (-51 : ℤ) := by
  have lower := h.exactWidth_nonneg
  have upper := value_halfTurn_lt
  have full := value_fullTurn
  have width := h.exactWidth_eq
  have lt := h.east_lt_west
  have sum := isNearest_sub h.isFinite_east h.isFinite_west
  rw [show value r.east - value r.west = r.exactWidth - value fullTurn by linarith] at sum
  exact rounded_of_abs_lt sum (abs_lt.2 ⟨by linarith, by linarith⟩)

/-- The sum that `width` ends with. -/
theorem isNearest_width (h : r.IsOver) : IsNearest r.width (value (r.east - r.west) + value fullTurn) := by
  rw [h.width_eq]
  exact isNearest_add h.value_difference.1 isFinite_fullTurn

/-- Up to two radians, `width` is the exact width rounded to a multiple of `2 ^ (-50)`. -/
theorem value_width (h : r.IsOver) (narrow : r.exactWidth ≤ 2) : value r.width = nearestStep (-50) r.exactWidth := by
  have zero := h.exactWidth_nonneg
  have lower := value_halfTurn_gt
  have upper := value_halfTurn_lt
  have full := value_fullTurn
  have size : |r.exactWidth - value fullTurn| = value fullTurn - r.exactWidth := by
    rw [abs_of_nonpos (by linarith), neg_sub]
  have rounded : nearest (r.exactWidth - value fullTurn) = nearestStep (-50) (r.exactWidth - value fullTurn) := by
    refine nearest_of_mem_Ico ?_ (by norm_num)
    rw [size]
    constructor <;> norm_num <;> linarith
  have turn : value fullTurn = (7074237752028440 : ℤ) * 2 ^ (-50 : ℤ) := by
    rw [value_fullTurn_steps]
    norm_num
  have sum : value (r.east - r.west) + value fullTurn = nearestStep (-50) r.exactWidth := by
    have shifted := nearestStep_add_even (-50) (r.exactWidth - value fullTurn) (show Even (7074237752028440 : ℤ) by decide)
    rw [← turn, sub_add_cancel] at shifted
    rw [h.value_difference.2.1, rounded, shifted]
  have least : 0 ≤ nearestStep (-50) r.exactWidth := by
    have := le_nearestStep (e := -50) (n := 0) (q := r.exactWidth) (by rw [Int.cast_zero, zero_mul]; exact zero)
    rwa [Int.cast_zero, zero_mul] at this
  have most : nearestStep (-50) r.exactWidth ≤ 2 :=
    (nearestStep_le (e := -50) (n := 2 ^ 51) (narrow.trans (by norm_num))).trans_eq (by norm_num)
  have steps : nearestStep (-50) r.exactWidth = (2 * nearestWhole (r.exactWidth / 2 ^ (-50 : ℤ)) : ℤ) * 2 ^ (-51 : ℤ) := by
    rw [nearestStep, show (2 : ℚ) ^ (-50 : ℤ) = 2 * 2 ^ (-51 : ℤ) by norm_num]
    push_cast
    ring
  have result := h.isNearest_width
  rw [sum] at result
  exact (exact_of_steps result steps (abs_le.2 ⟨by linarith, by linarith⟩)).2

/-- Beyond two radians `width` is not below them. -/
theorem two_le_width (h : r.IsOver) (wide : 2 < r.exactWidth) : 2 ≤ value r.width := by
  have cut : (2 - fullTurn).isFinite = true ∧ value (2 - fullTurn) = 2 - value fullTurn := by decide +kernel
  have difference := (isNearest_sub h.isFinite_east h.isFinite_west).le_value cut.1
    (by rw [cut.2]; linarith [h.exactWidth_eq])
  have := h.isNearest_width.le_value value_2.1 (by rw [value_2.2]; linarith)
  rwa [value_2.2] at this

/-- A box over the date line is less than a turn wide. -/
theorem abs_exactWidth_lt (h : r.IsOver) : |r.exactWidth| < 7 := by
  have upper := value_halfTurn_lt
  rw [abs_of_nonneg h.exactWidth_nonneg, h.exactWidth_eq, value_fullTurn]
  linarith [h.east_lt_west]

/-- `width` is near the exact width. -/
theorem abs_value_width_sub_le (h : r.IsOver) : |value r.width - r.exactWidth| ≤ 2 ^ (-50 : ℤ) := by
  refine abs_value_sub_le_of_near h.isNearest_width ?_ h.abs_exactWidth_lt
  have shift : value (r.east - r.west) + value fullTurn - r.exactWidth = value (r.east - r.west) - (r.exactWidth - value fullTurn) := by
    ring
  rw [shift]
  exact h.value_difference.2.2

/-- So is what the guard measures on a narrow box. -/
theorem abs_value_guardedWidth_sub_le (h : r.IsOver) (narrow : r.exactWidth ≤ 2) :
    |value (r.guardedWidth true) - r.exactWidth| ≤ 2 ^ (-50 : ℤ) := by
  have lower := value_halfTurn_gt
  have upper := value_halfTurn_lt
  have full := value_fullTurn
  have width := h.exactWidth_eq
  have east := h.le_east
  obtain ⟨far, -⟩ := h.far
  obtain ⟨finite, -, near⟩ := rounded_of_abs_lt (isNearest_add h.isFinite_east isFinite_fullTurn) (abs_lt.2 ⟨by linarith, by linarith⟩)
  refine abs_value_sub_le_of_near (isNearest_sub finite h.isFinite_west) ?_ h.abs_exactWidth_lt
  have shift : value (r.east + fullTurn) - value r.west - r.exactWidth = value (r.east + fullTurn) - (value r.east + value fullTurn) := by
    rw [width]
    ring
  rwa [shift]

/-- So is what is measured while it is widened. -/
theorem abs_value_widenedWidth_sub_le (h : r.IsOver) (narrow : r.exactWidth ≤ 2) :
    |value (r.widenedWidth true) - r.exactWidth| ≤ 2 ^ (-50 : ℤ) := by
  have lower := value_halfTurn_gt
  have upper := value_halfTurn_lt
  have full := value_fullTurn
  have width := h.exactWidth_eq
  have west := h.west_le
  obtain ⟨-, far⟩ := h.far
  obtain ⟨finite, -, near⟩ := rounded_of_abs_lt (isNearest_sub h.isFinite_west isFinite_fullTurn) (abs_lt.2 ⟨by linarith, by linarith⟩)
  refine abs_value_sub_le_of_near (isNearest_sub h.isFinite_east finite) ?_ h.abs_exactWidth_lt
  have shift : value r.east - value (r.west - fullTurn) - r.exactWidth = -(value (r.west - fullTurn) - (value r.west - value fullTurn)) := by
    rw [width]
    ring
  rwa [shift, abs_neg]

/-- The exact width of a narrow box is a multiple of `2 ^ (-51)`. -/
theorem exists_steps_exactWidth (h : r.IsOver) (narrow : r.exactWidth ≤ 1) : ∃ n : ℤ, r.exactWidth = n * 2 ^ (-51 : ℤ) := by
  have lower := value_halfTurn_gt
  obtain ⟨east, west⟩ := h.far
  obtain ⟨n, hn⟩ := exists_steps (x := r.east) (by rw [abs_of_nonpos (by linarith)]; linarith)
  obtain ⟨k, hk⟩ := exists_steps (x := r.west) (by rw [abs_of_nonneg (by linarith)]; linarith)
  refine ⟨n - k + 14148475504056880, ?_⟩
  rw [h.exactWidth_eq, hn, hk, value_fullTurn_steps]
  push_cast
  ring

/-- On a narrow box the guard does not round. -/
theorem value_guardedWidth (h : r.IsOver) (narrow : r.exactWidth ≤ 1 / 2) : value (r.guardedWidth true) = r.exactWidth := by
  have lower := value_halfTurn_gt
  have upper := value_halfTurn_lt
  have full := value_fullTurn
  have le_east := h.le_east
  have zero := h.exactWidth_nonneg
  obtain ⟨east, west⟩ := h.far
  obtain ⟨n, hn⟩ := exists_steps (x := r.east) (by rw [abs_of_nonpos (by linarith)]; linarith)
  obtain ⟨k, hk⟩ := h.exists_steps_exactWidth (by linarith)
  have turned : value r.east + value fullTurn = (n + 14148475504056880 : ℤ) * 2 ^ (-51 : ℤ) := by
    rw [hn, value_fullTurn_steps]
    push_cast
    ring
  obtain ⟨finite, sum⟩ := exact_of_steps (isNearest_add h.isFinite_east isFinite_fullTurn) turned (abs_le.2 ⟨by linarith, by linarith⟩)
  have rest := isNearest_sub finite h.isFinite_west
  rw [sum, show value r.east + value fullTurn - value r.west = r.exactWidth by rw [h.exactWidth_eq]; ring] at rest
  exact (exact_of_steps rest hk (abs_le.2 ⟨by linarith, by linarith⟩)).2

/-- Neither does widening, if the western bound is near the date line. -/
theorem value_widenedWidth (h : r.IsOver) (narrow : r.exactWidth ≤ 1) (near : 5 / 2 ≤ value r.west) :
    value (r.widenedWidth true) = r.exactWidth := by
  have lower := value_halfTurn_gt
  have upper := value_halfTurn_lt
  have full := value_fullTurn
  have west_le := h.west_le
  have zero := h.exactWidth_nonneg
  obtain ⟨n, hn⟩ := exists_steps (x := r.west) (by rw [abs_of_nonneg (by linarith)]; linarith)
  obtain ⟨k, hk⟩ := h.exists_steps_exactWidth narrow
  have turned : value r.west - value fullTurn = (n - 14148475504056880 : ℤ) * 2 ^ (-51 : ℤ) := by
    rw [hn, value_fullTurn_steps]
    push_cast
    ring
  obtain ⟨finite, start⟩ := exact_of_steps (isNearest_sub h.isFinite_west isFinite_fullTurn) turned (abs_le.2 ⟨by linarith, by linarith⟩)
  have rest := isNearest_sub h.isFinite_east finite
  rw [start, show value r.east - (value r.west - value fullTurn) = r.exactWidth by rw [h.exactWidth_eq]; ring] at rest
  exact (exact_of_steps rest hk (abs_le.2 ⟨by linarith, by linarith⟩)).2

/-! ## Below an angle -/

/-- Where the exact width is not below an angle of at most one radian, `width` is below it only if a tie takes it there: nothing else
moves a multiple of `2 ^ (-51)`, and a tie moves it by one step. -/
theorem value_width_lt_iff (h : r.IsOver) {b : ℚ} (h1 : b ≤ 1) (hb : b ≤ r.exactWidth) :
    value r.width < b ↔ r.FallsShort b := by
  have step := two_zpow_pos (-51)
  rcases le_or_gt r.exactWidth 1 with narrow | wide
  · obtain ⟨n, hn⟩ := h.exists_steps_exactWidth narrow
    have rounded : value r.width = (if n % 4 = 1 then n - 1 else if n % 4 = 3 then n + 1 else n : ℤ) * 2 ^ (-51 : ℤ) := by
      rw [h.value_width (by linarith), hn]
      exact nearestStep_succ (-51) n
    rw [FallsShort, rounded, hn]
    have least : ⌈b / 2 ^ (-51 : ℤ)⌉ ≤ n := Int.ceil_le.2 ((div_le_iff₀ step).2 (hn ▸ hb))
    constructor
    · intro lt
      have tie : n % 4 = 1 := by
        by_contra other
        rw [if_neg other] at lt
        have up : n ≤ if n % 4 = 3 then n + 1 else n := by
          split <;> omega
        have : (n : ℚ) * 2 ^ (-51 : ℤ) ≤ ((if n % 4 = 3 then n + 1 else n : ℤ) : ℚ) * 2 ^ (-51 : ℤ) := by
          gcongr
        linarith
      rw [if_pos tie] at lt
      have first : n - 1 < ⌈b / 2 ^ (-51 : ℤ)⌉ := Int.lt_ceil.2 ((lt_div_iff₀ step).2 lt)
      have reached : ⌈b / 2 ^ (-51 : ℤ)⌉ = n := by omega
      rw [reached]
      exact ⟨rfl, tie⟩
    · rintro ⟨reached, tie⟩
      have same : n = ⌈b / 2 ^ (-51 : ℤ)⌉ := by exact_mod_cast mul_right_cancel₀ step.ne' reached
      rw [same, if_pos tie]
      exact (lt_div_iff₀ step).1 (Int.lt_ceil.1 (by omega))
  · refine iff_of_false (not_lt.2 (h1.trans ?_)) ?_
    · rcases le_or_gt r.exactWidth 2 with narrow | wider
      · rw [h.value_width narrow]
        have := le_nearestStep (e := -50) (n := 2 ^ 50) (q := r.exactWidth) (wide.le.trans' (by norm_num))
        exact this.trans' (by norm_num)
      · linarith [h.two_le_width wider]
    · rintro ⟨reached, -⟩
      have few : ⌈b / 2 ^ (-51 : ℤ)⌉ ≤ 2 ^ 51 := Int.ceil_le.2 ((div_le_iff₀ step).2 (h1.trans (by norm_num)))
      have : (⌈b / 2 ^ (-51 : ℤ)⌉ : ℚ) * 2 ^ (-51 : ℤ) ≤ ((2 ^ 51 : ℤ) : ℚ) * 2 ^ (-51 : ℤ) := by
        gcongr
      rw [← reached] at this
      exact wide.not_ge (this.trans_eq (by norm_num))

/-- An angle of at most two radians that another sum is not below exceeds `width` only by roundings. -/
theorem sub_le_value_width (h : r.IsOver) {b z : ℚ} (h2 : b ≤ 2) (near : r.exactWidth ≤ 2 → |z - r.exactWidth| ≤ 2 ^ (-50 : ℤ))
    (hz : b ≤ z) : b - 2 ^ (-49 : ℤ) ≤ value r.width := by
  have twice : (2 : ℚ) ^ (-49 : ℤ) = 2 ^ (-50 : ℤ) + 2 ^ (-50 : ℤ) := by norm_num
  have step := two_zpow_pos (-50)
  rcases le_or_gt r.exactWidth 2 with narrow | wide
  · obtain ⟨-, above⟩ := abs_le.1 (near narrow)
    obtain ⟨below, -⟩ := abs_le.1 h.abs_value_width_sub_le
    linarith
  · linarith [h.two_le_width wide]

/-! ## What the guard achieves -/

/-- What the guard lets through is as wide without rounding. -/
theorem le_exactWidth_of_guarded (h : r.IsOver) (small : value b ≤ 1 / 2) (wide : b ≤ r.guardedWidth true) : value b ≤ r.exactWidth := by
  rcases le_or_gt r.exactWidth (1 / 2) with narrow | wider
  · exact (value_le_of_le wide).trans_eq (h.value_guardedWidth narrow)
  · exact small.trans wider.le

/-- A box that the guard does not let through begins near the date line. -/
theorem near_of_thin (h : r.IsOver) (nb : b.isNaN = false) (small : value b ≤ 1 / 2) (thin : ¬b ≤ r.guardedWidth true) :
    5 / 2 ≤ value r.west := by
  have lower := value_halfTurn_gt
  have full := value_fullTurn
  have cut : (0.5 : Float).isFinite = true ∧ value 0.5 = 1 / 2 := by decide +kernel
  by_contra far
  have turned := isNearest_add h.isFinite_east isFinite_fullTurn
  have finite : (r.east + fullTurn).isFinite = true := isFinite_add h.isFinite_east (by decide +kernel) (by decide +kernel)
  have half := turned.le_value isFinite_halfTurn (by linarith [h.le_east])
  have rest := isNearest_sub finite h.isFinite_west
  have wide := rest.le_value cut.1 (by rw [cut.2]; linarith)
  exact thin ((le_iff_value_le nb rest.isNaN_eq).2 (by linarith))

/-- What is widened as far as an angle is as wide without rounding, if it begins near the date line. -/
theorem le_exactWidth_of_widened (h : r.IsOver) (small : value b ≤ 1) (near : 5 / 2 ≤ value r.west) (wide : b ≤ r.widenedWidth true) :
    value b ≤ r.exactWidth := by
  rcases le_or_gt r.exactWidth 1 with narrow | wider
  · exact (value_le_of_le wide).trans_eq (h.value_widenedWidth narrow near)
  · exact small.trans wider.le

end IsOver

/-! ## The box between two points -/

/-- An angle that the guard asks of the width of the box between two points: the threshold, and twice the threshold if the box is narrower
than it at the corners. -/
def IsAsked (anchor current : Point) (crossing : Bool) (epsilon b : Float) : Prop :=
  b = epsilon ∨ b = 2 * epsilon ∧ IsNarrow anchor current crossing epsilon

variable {anchor current : Point} {crossing : Bool} {epsilon b : Float} {r : Rectangle}

/-- Twice a small threshold is exact. -/
theorem value_two_mul (fε : epsilon.isFinite = true) (h0 : 0 ≤ value epsilon) (h1 : value epsilon ≤ 1) :
    (2 * epsilon).isFinite = true ∧ value (2 * epsilon) = 2 * value epsilon := by
  have product := isNearest_mul value_2.1 fε
  rw [value_2.2] at product
  obtain ⟨finite, rounded, -⟩ := rounded_of_abs_lt product (abs_lt.2 ⟨by linarith, by linarith⟩)
  exact ⟨finite, rounded.trans (nearest_of_onGrid (onGrid_value epsilon).two_mul)⟩

/-- The box at the corners lies between them. -/
theorem spans_corners (crossing : Bool) (ha : anchor.isFinite = true) (hc : current.isFinite = true) :
    Spans anchor current crossing (corners anchor current crossing) := by
  obtain ⟨a1, a2⟩ := isFinite_point ha
  obtain ⟨c1, c2⟩ := isFinite_point hc
  obtain ⟨fs, vs⟩ := value_lesser a1 c1
  obtain ⟨fn, vn⟩ := value_greater a1 c1
  obtain ⟨fe, fw, ve, vw⟩ := value_bounds crossing a2 c2
  exact ⟨fs, fw, isNaN_of_isFinite fn, isNaN_of_isFinite fe, vs, vn.ge, vw, ve.ge⟩

/-- A box between two points of the turn whose eastern bound is below its western one lies over the date line. -/
theorem Spans.isOver (h : Spans anchor current true r) (ta : InTurn anchor.longitude) (tc : InTurn current.longitude)
    (lt : value r.east < value r.west) : r.IsOver := by
  obtain ⟨le_east, west_le⟩ := h.mem_turn ta tc
  have finite : r.east.isFinite = true :=
    isFinite_of_mem_Icc isFinite_neg_halfTurn h.isFinite_west h.isNaN_east (by rwa [value_neg]) lt.le
  exact ⟨finite, h.isFinite_west, le_east, west_le, lt⟩

/-- The box between two points that is marked as wrapping only across the prime meridian lies over the date line, and it did before it was
widened. -/
theorem isOver_spanning (ha : anchor.isFinite = true) (hc : current.isFinite = true) (ta : InTurn anchor.longitude)
    (tc : InTurn current.longitude) (across : Across anchor.longitude current.longitude) (fε : epsilon.isFinite = true)
    (h0 : 0 ≤ value epsilon) (h1 : value epsilon ≤ 1) :
    (spanning anchor current true epsilon).IsOver ∧ (corners anchor current true).IsOver := by
  have spans := spans_spanning true ha hc fε h0
  have raw := spans_corners true ha hc
  have sides := (across_value (isNaN_of_isFinite ta.isFinite) (isNaN_of_isFinite tc.isFinite)).2 across
  have lt := value_east_lt_value_west ta tc sides fε h0 h1
  obtain ⟨-, -, ve, -⟩ := value_bounds true ta.isFinite tc.isFinite
  rw [if_pos rfl] at ve
  have le : value (corners anchor current true).east ≤ value (spanning anchor current true epsilon).east := ve.trans_le spans.le_east
  exact ⟨spans.isOver ta tc lt, raw.isOver ta tc (le.trans_lt lt)⟩

/-- How the width of a box stands to an angle that the guard asks of it. A plain box is as wide. The width of a box over the date line falls
short by rounding only, and up to two radians it is the exact width rounded to a multiple of `2 ^ (-50)`. If the threshold is at most half a
radian, then the exact width does not fall short, and it is known when the rounded one does. -/
structure WidthMeets (r : Rectangle) (crossing : Bool) (epsilon b : Float) : Prop where
  le_width : crossing = false → b ≤ r.width
  sub_le_width : crossing = true → value b - 2 ^ (-49 : ℤ) ≤ value r.width
  value_width : crossing = true → r.exactWidth ≤ 2 → value r.width = nearestStep (-50) r.exactWidth
  le_exactWidth : crossing = true → value epsilon ≤ 1 / 2 → value b ≤ r.exactWidth
  le_width_iff : crossing = true → value epsilon ≤ 1 / 2 → (b ≤ r.width ↔ ¬r.FallsShort (value b))

/-- Every box between two points of the turn that is marked as wrapping only across the prime meridian is guarded or widened, and what is
asked of it is measured in the one way or in the other. -/
theorem measured_spanning (ta : InTurn anchor.longitude) (tc : InTurn current.longitude) (fε : epsilon.isFinite = true)
    (h0 : 0 ≤ value epsilon) (h1 : value epsilon ≤ 1) (asked : IsAsked anchor current crossing epsilon b) :
    let r := spanning anchor current crossing epsilon
    b ≤ r.guardedWidth crossing ∧ value b = value epsilon ∨
      ¬epsilon ≤ (corners anchor current crossing).guardedWidth crossing ∧ b ≤ r.widenedWidth crossing ∧ value b ≤ 2 * value epsilon := by
  intro r
  have narrow := isNarrow_iff crossing ta.isFinite tc.isFinite (isNaN_of_isFinite fε)
  have guarded := east_guarded crossing ta tc fε h0
  obtain ⟨-, v2⟩ := value_two_mul fε h0 h1
  split at guarded
  · next wide =>
    have same : r.guardedWidth crossing = (corners anchor current crossing).guardedWidth crossing := by
      rw [guardedWidth, guardedWidth, guarded]
      rfl
    rcases asked with rfl | ⟨-, thin⟩
    · exact Or.inl ⟨same ▸ wide, rfl⟩
    · exact absurd wide (narrow.1 thin)
  · next thin =>
    rcases asked with rfl | ⟨rfl, -⟩
    · exact Or.inr ⟨thin, le_of_le_of_le (le_target fε h0) guarded, by linarith⟩
    · exact Or.inr ⟨thin, guarded, v2.le⟩

/-- What the guard asks of the width of the box between two points is met, up to the rounding of the width. -/
theorem widthMeets_spanning (ha : anchor.isFinite = true) (hc : current.isFinite = true) (ta : InTurn anchor.longitude)
    (tc : InTurn current.longitude) (across : crossing = true → Across anchor.longitude current.longitude) (fε : epsilon.isFinite = true)
    (h0 : 0 ≤ value epsilon) (h1 : value epsilon ≤ 1) (asked : IsAsked anchor current crossing epsilon b) :
    (spanning anchor current crossing epsilon).WidthMeets crossing epsilon b := by
  have order := (ordered_spanning ha hc ta tc across fε h0 h1).crossesDateLine_eq
  have measured := measured_spanning ta tc fε h0 h1 asked
  cases crossing with
  | false =>
    have plain : b ≤ (spanning anchor current false epsilon).width := by
      rw [width, order, if_neg Bool.false_ne_true]
      rcases measured with ⟨wide, -⟩ | ⟨-, wide, -⟩ <;> exact wide
    exact ⟨fun _ => plain, nofun, nofun, nofun, nofun⟩
  | true =>
    obtain ⟨wraps, raw⟩ := isOver_spanning ha hc ta tc (across rfl) fε h0 h1
    have nb : b.isNaN = false := by
      rcases measured with ⟨wide, -⟩ | ⟨-, wide, -⟩ <;> exact (isNaN_of_le wide).1
    have reached : value epsilon ≤ 1 / 2 → value b ≤ (spanning anchor current true epsilon).exactWidth := by
      intro small
      rcases measured with ⟨wide, vb⟩ | ⟨thin, wide, vb⟩
      · exact wraps.le_exactWidth_of_guarded (by linarith) wide
      · exact wraps.le_exactWidth_of_widened (by linarith) (raw.near_of_thin (isNaN_of_isFinite fε) small thin) wide
    refine ⟨nofun, fun _ => ?_, fun _ => wraps.value_width, fun _ => reached, fun _ small => ?_⟩
    · rcases measured with ⟨wide, vb⟩ | ⟨-, wide, vb⟩
      · exact wraps.sub_le_value_width (by linarith) wraps.abs_value_guardedWidth_sub_le (value_le_of_le wide)
      · exact wraps.sub_le_value_width (by linarith) wraps.abs_value_widenedWidth_sub_le (value_le_of_le wide)
    · rw [le_iff_value_le nb wraps.isNearest_width.isNaN_eq, ← not_lt]
      refine not_congr (wraps.value_width_lt_iff ?_ (reached small))
      rcases measured with ⟨-, vb⟩ | ⟨-, -, vb⟩ <;> linarith

end GlobeDrag.Rectangle
