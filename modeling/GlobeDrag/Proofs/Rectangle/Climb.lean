import GlobeDrag.Proofs.Binary64.Difference
import GlobeDrag.Proofs.Rectangle.Widen

/-!
# Steps of a climb

A climb ends wherever it starts, and always because the distance is reached: what has no next double is not too close to anything. From a
bound that was pushed up by the whole angle one step is enough, since rounding took less than that away.

Main statements: `climbs_climb` (a climb ends after some number of steps), `sum_le_value_next` (the next double passes the exact sum) and
`widen_within_one_step`.
-/

namespace GlobeDrag.Rectangle

open Binary64
open Float.Model.UnpackedFloat

variable {low target high next top epsilon : Float} {n : ℕ}

/-- Climbing from `high` takes `n` steps, each of them from a double too close to `low`, and ends at `top`, which is far enough. -/
inductive Climbs (low target : Float) : ℕ → Float → Float → Prop
  | arrived {high : Float} (far : ¬high - low < target) : Climbs low target 0 high high
  | step {n : ℕ} {high next top : Float} (near : high - low < target) (up : successor? high = some next)
      (rest : Climbs low target n next top) : Climbs low target (n + 1) high top

/-! ## Every climb ends -/

/-- A difference that is a number is one of numbers, and its ends are not both positive infinity. -/
theorem isNaN_of_sub {x y : Float} (h : (x - y).isNaN = false) :
    x.isNaN = false ∧ y.isNaN = false ∧ ¬(x.toModel.unpack = .infinity .positive ∧ y.toModel.unpack = .infinity .positive) := by
  have difference : sub .binary64 x.toModel.unpack y.toModel.unpack ≠ .notANumber := by
    intro hu
    have packed : (x - y).toModel.unpack = .notANumber := by
      change (Float.ofModel (.pack (sub .binary64 x.toModel.unpack y.toModel.unpack))).toModel.unpack = _
      rw [hu]
      exact unpack_pack trivial
    change (x - y).toModel.unpack.isNaN = false at h
    rw [packed] at h
    cases h
  change x.toModel.unpack.isNaN = false ∧ y.toModel.unpack.isNaN = false ∧ _
  refine ⟨?_, ?_, ?_⟩
  · cases hx : x.toModel.unpack with
    | notANumber =>
      rw [hx] at difference
      exact absurd rfl difference
    | _ => rfl
  · cases hy : y.toModel.unpack with
    | notANumber =>
      rw [hy] at difference
      exact absurd (by cases x.toModel.unpack <;> rfl) difference
    | _ => rfl
  · rintro ⟨hx, hy⟩
    rw [hx, hy] at difference
    exact difference rfl

/-- From a double without a next one nothing is too close. -/
theorem not_near_of_successor?_eq_none (none : successor? high = none) : ¬high - low < target := by
  intro near
  obtain ⟨nd, nt⟩ := isNaN_of_lt near
  obtain ⟨nh, nl, apart⟩ := isNaN_of_sub nd
  have top := value_of_successor?_eq_none nh none
  have infinite : high.isFinite = false := by
    by_contra finite
    exact successor?_ne_none (Bool.not_eq_false _ ▸ finite) none
  obtain ⟨s, hu, hv⟩ := unpack_of_infinite nh infinite
  have positive : high.toModel.unpack = .infinity .positive := by
    cases s with
    | positive => exact hu
    | negative =>
      rw [hv, signed_negative] at top
      linarith [limit_pos]
  have difference := value_of_infinity (z := high - low) rfl (sub_of_infinity nh nl (.inl ⟨positive, fun hl => apart ⟨positive, hl⟩⟩))
  have far := (lt_iff_value_lt nd nt).1 near
  rw [difference.2, signed_positive] at far
  exact absurd (abs_le.1 (abs_value_le_limit nt)).2 (not_le.2 far)

/-- A climb ends, after some number of steps, at a double that is far enough. -/
theorem climbs_climb (low target high : Float) : ∃ n, Climbs low target n high (climb low target high) := by
  fun_induction climb low target high with
  | case1 high near next up ih =>
    obtain ⟨n, steps⟩ := ih
    exact ⟨n + 1, .step near up steps⟩
  | case2 high near none => exact absurd near (not_near_of_successor?_eq_none none)
  | case3 high far => exact ⟨0, .arrived far⟩

/-! ## One step is enough -/

/-- What is at least the whole angle above a number not below `low` is far enough. -/
theorem not_near_of_le {x : Float} (hl : low.isFinite = true) (hx : x.isNaN = false) (ht : target.isFinite = true)
    (room : value low + value target ≤ value x) (above : value low ≤ value x) : ¬x - low < target := by
  have nt := isNaN_of_isFinite ht
  cases finite : x.isFinite with
  | true =>
    have span := isNearest_sub finite hl
    rw [lt_iff_value_lt span.isNaN_eq nt, not_lt]
    exact span.le_value ht (by linarith)
  | false =>
    obtain ⟨ns, hs⟩ := value_sub_of_infinite hx finite hl
    rw [lt_iff_value_lt ns nt, not_lt, hs, value_of_infinite hx finite hl above]
    exact (abs_le.1 (abs_value_le_limit nt)).2

/-- The next double after a rounded sum is not below the exact one. -/
theorem sum_le_value_next (hh : high.isFinite = true) (ht : target.isFinite = true)
    (up : successor? (high + target) = some next) : next.isNaN = false ∧ value high + value target ≤ value next := by
  have sum := isNearest_add hh ht
  have nn := (rank_successor? up).1
  refine ⟨nn, ?_⟩
  by_contra below
  have reached : value next ≤ value (high + target) := by
    rw [sum.value_eq, ← clamp_of_abs_le (abs_value_le_limit nn)]
    exact clamp_mono (le_nearest (onGrid_value next) (not_le.1 below).le)
  exact absurd (successor?_least sum.isNaN_eq up).1 (not_lt.2 reached)

/-- A climb from a bound pushed up by all of a positive angle takes one step at most. -/
theorem Climbs.length_le_one (hl : low.isFinite = true) (hh : high.isFinite = true) (ht : target.isFinite = true)
    (order : value low ≤ value high) (h0 : 0 ≤ value target) (h : Climbs low target n (high + target) top) : n ≤ 1 := by
  cases h with
  | arrived far => exact Nat.zero_le _
  | step near up rest =>
    cases rest with
    | arrived far => exact le_rfl
    | step still up' rest =>
      obtain ⟨nn, room⟩ := sum_le_value_next hh ht up
      exact absurd still (not_near_of_le hl nn ht (by linarith) (by linarith))

/-- A climb from a double that is too close has steps. -/
theorem Climbs.pos (h : Climbs low target n high top) (near : high - low < target) : 0 < n := by
  cases h with
  | arrived far => exact absurd near far
  | step => exact Nat.succ_pos _

/-- Twice an angle is finite only if the angle is. -/
theorem isFinite_of_two_mul (h : (2 * epsilon).isFinite = true) : epsilon.isFinite = true := by
  have product : (mul .binary64 (2 : Float).toModel.unpack epsilon.toModel.unpack).isFinite = true := isFinite_of_pack h
  obtain ⟨m, e, hm, two, -⟩ := unpack_of_pos (show (2 : Float).isFinite = true by decide) (by decide +kernel)
  change epsilon.toModel.unpack.isFinite = true
  cases he : epsilon.toModel.unpack with
  | infinity s =>
    rw [two, he] at product
    cases product
  | notANumber =>
    rw [two, he] at product
    cases product
  | _ => rfl

/-- Pushing up a bound ends for any bounds and any angle: the climb takes some number of steps, each of them from a double that is too
close. Where the bounds are finite and in order, the angle is positive and twice the angle is finite, that is one step at most, and the
result is no lower than the bound and far enough, infinity included. -/
theorem widen_within_one_step (low high epsilon : Float) :
    ∃ n, Climbs low (2 * epsilon) n (high + 2 * epsilon) (widen low high epsilon) ∧
      (low.isFinite = true → high.isFinite = true → low ≤ high → 0 < epsilon → (2 * epsilon).isFinite = true →
        n ≤ 1 ∧ high ≤ widen low high epsilon ∧ 2 * epsilon ≤ widen low high epsilon - low) := by
  obtain ⟨n, steps⟩ := climbs_climb low (2 * epsilon) (high + 2 * epsilon)
  refine ⟨n, steps, ?_⟩
  intro hl hh order positive ht
  have he := isFinite_of_two_mul ht
  have h0 : 0 ≤ value epsilon := by
    rw [← value_zero]
    exact value_le_of_le (le_of_lt_double positive)
  obtain ⟨nw, up⟩ := le_value_widen low hh he h0
  refine ⟨?_, ?_, target_le_widen_sub hl hh he h0⟩
  · exact steps.length_le_one hl hh ht (value_le_of_le order) (zero_le_target he h0).2
  · exact (le_iff_value_le (isNaN_of_isFinite hh) nw).2 up

/-- At a latitude of one radian the sum is rounded down, so that the default angle takes its one step. -/
theorem widen_within_one_step_default :
    (1 : Float) + 2 * defaultEpsilon - 1 < 2 * defaultEpsilon ∧
      ∃ n, Climbs 1 (2 * defaultEpsilon) n (1 + 2 * defaultEpsilon) (widen 1 1 defaultEpsilon) ∧ n = 1 ∧
        1 ≤ widen 1 1 defaultEpsilon ∧ 2 * defaultEpsilon ≤ widen 1 1 defaultEpsilon - 1 := by
  have short : (1 : Float) + 2 * defaultEpsilon - 1 < 2 * defaultEpsilon := by decide +kernel
  obtain ⟨n, steps, bounds⟩ := widen_within_one_step 1 1 defaultEpsilon
  obtain ⟨most, up, far⟩ := bounds (by decide) (by decide) (by decide +kernel) (by decide +kernel) (by decide +kernel)
  exact ⟨short, n, steps, le_antisymm most (steps.pos short), up, far⟩

end GlobeDrag.Rectangle
