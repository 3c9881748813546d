import GlobeDrag.Proofs.Binary64.Monotone

/-!
# Differences of doubles

Rounding never makes different doubles equal: what is left between them is a multiple of the smallest positive double.

Main statements: `zero_lt_sub` and `value_add_pos` (differences and sums are positive where the exact ones are) and
`OnGrid.exists_mul_of_le` (from a power of two on the doubles are whole multiples of the spacing there).
-/

namespace GlobeDrag.Binary64

open Float.Model (UnpackedFloat)
open Float.Model.UnpackedFloat

/-- A number on the grid is a whole multiple of the smallest positive double. -/
theorem OnGrid.exists_mul_least {q : ℚ} (h : OnGrid q) : ∃ n : ℤ, q = n * 2 ^ (-1074 : ℤ) := by
  obtain ⟨k, e, -, he, rfl⟩ := h
  refine ⟨k * 2 ^ (e + 1074).toNat, ?_⟩
  rw [Int.cast_mul, Int.cast_pow, Int.cast_ofNat, mul_assoc, ← zpow_natCast, Int.toNat_of_nonneg (by omega),
    ← zpow_add₀ two_ne_zero, add_neg_cancel_right]

/-- Different numbers on the grid are at least the smallest positive double apart. -/
theorem OnGrid.gap {q r : ℚ} (hq : OnGrid q) (hr : OnGrid r) (h : q < r) : 2 ^ (-1074 : ℤ) ≤ r - q := by
  obtain ⟨n, rfl⟩ := hq.exists_mul_least
  obtain ⟨k, rfl⟩ := hr.exists_mul_least
  have hnk : n + 1 ≤ k := by exact_mod_cast lt_of_mul_lt_mul_right h (two_zpow_pos _).le
  have hnk' : (n : ℚ) + 1 ≤ k := by exact_mod_cast hnk
  rw [← sub_mul]
  exact le_mul_of_one_le_left (two_zpow_pos _).le (by linarith)

/-- From a power of two on, the numbers on the grid are whole multiples of the spacing there. -/
theorem OnGrid.exists_mul_of_le {q : ℚ} (h : OnGrid q) {e : ℤ} (hle : 2 ^ (e + 52) ≤ |q|) : ∃ n : ℤ, q = n * 2 ^ e := by
  obtain ⟨n, hn⟩ := h.exists_mul_grain
  have hg := le_grain_of_le hle
  refine ⟨n * 2 ^ (grain q - e).toNat, ?_⟩
  push_cast
  rw [mul_assoc, ← zpow_natCast, Int.toNat_of_nonneg (by omega), ← zpow_add₀ (by norm_num), sub_add_cancel]
  exact hn

theorem one_le_infinityWord : (1 : UInt64).toNat % signWord ≤ infinityWord := by decide

/-- The smallest positive double. -/
def least : Float := ofWord 1 one_le_infinityWord

theorem value_least : value least = 2 ^ (-1074 : ℤ) := by
  obtain ⟨-, hv⟩ := value_eq_size (show least.isNaN = false by decide)
  rw [hv]
  change size 1 = _
  rw [size_of_lt (by norm_num), Nat.cast_one, one_mul]

variable {x y z : Float} {q : ℚ}

/-- A number that is not below the smallest positive double is delivered as positive. -/
theorem IsNearest.value_pos (h : IsNearest z q) (hq : 2 ^ (-1074 : ℤ) ≤ q) : 0 < value z :=
  (two_zpow_pos _).trans_le (value_least ▸ h.le_value (by decide) (value_least.le.trans hq))

/-- A sum of finite doubles is positive where the exact one is. -/
theorem value_add_pos (hx : x.isFinite = true) (hy : y.isFinite = true) (h : 0 < value x + value y) : 0 < value (x + y) := by
  refine (isNearest_add hx hy).value_pos ?_
  have := (onGrid_value x).neg.gap (onGrid_value y) (by linarith)
  linarith

/-- A difference with positive infinity in front or negative infinity behind is positive infinity. -/
theorem sub_of_infinity {u v : UnpackedFloat} (nu : u.isNaN = false) (nv : v.isNaN = false)
    (h : u = .infinity .positive ∧ v ≠ .infinity .positive ∨ v = .infinity .negative ∧ u ≠ .infinity .negative) :
    sub .binary64 u v = .infinity .positive := by
  rcases h with ⟨rfl, h⟩ | ⟨rfl, h⟩
  · cases v with
    | infinity s =>
      cases s
      · rfl
      · exact absurd rfl h
    | notANumber => cases nv
    | _ => rfl
  · cases u with
    | infinity s =>
      cases s
      · exact absurd rfl h
      · rfl
    | notANumber => cases nu
    | _ => rfl

/-- A difference of numbers is positive where the exact one is. -/
theorem zero_lt_sub (hx : x.isNaN = false) (hy : y.isNaN = false) (h : value y < value x) : 0 < x - y := by
  have infinite : x.toModel.unpack = .infinity .positive ∧ y.toModel.unpack ≠ .infinity .positive ∨
      y.toModel.unpack = .infinity .negative ∧ x.toModel.unpack ≠ .infinity .negative →
      (x - y).isNaN = false ∧ 0 < value (x - y) := by
    intro hi
    obtain ⟨h1, h2⟩ := value_of_infinity (z := x - y) rfl (sub_of_infinity hx hy hi)
    exact ⟨h1, h2 ▸ limit_pos⟩
  have bx := abs_le.1 (abs_value_le_limit hx)
  have bY := abs_le.1 (abs_value_le_limit hy)
  have hz : (x - y).isNaN = false ∧ 0 < value (x - y) := by
    cases fx : x.isFinite with
    | false =>
      obtain ⟨s, hu, hv⟩ := unpack_of_infinite hx fx
      cases s with
      | negative =>
        rw [hv, signed_negative] at h
        linarith
      | positive =>
        refine infinite (Or.inl ⟨hu, ?_⟩)
        intro hy'
        rw [value, value, hu, hy'] at h
        exact lt_irrefl _ h
    | true =>
      cases fy : y.isFinite with
      | true =>
        have hn := isNearest_sub fx fy
        exact ⟨hn.isNaN_eq, hn.value_pos ((onGrid_value y).gap (onGrid_value x) h)⟩
      | false =>
        obtain ⟨s, hu, hv⟩ := unpack_of_infinite hy fy
        cases s with
        | positive =>
          rw [hv, signed_positive] at h
          linarith
        | negative =>
          refine infinite (Or.inr ⟨hu, ?_⟩)
          intro hx'
          rw [value, value, hu, hx'] at h
          exact lt_irrefl _ h
  rw [lt_iff_value_lt (isNaN_of_isFinite isFinite_zero) hz.1, value_zero]
  exact hz.2

end GlobeDrag.Binary64
