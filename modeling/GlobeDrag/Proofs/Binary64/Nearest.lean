import Mathlib

/-!
# Rounding exact numbers to doubles

Exact numbers are rationals. `nearest` takes a rational to the grid of the doubles, a tie going to the even neighbour, as if there
were no largest double; `clamp` cuts off what lies beyond. Infinity stands at `limit`, the first power of two above the doubles.

Main statements: `nearest_mono` and `nearest_neg` (rounding keeps the order and is odd), `nearest_of_onGrid` (what is on the grid
stays) and `nearest_onGrid` (rounding ends on the grid).
-/

namespace GlobeDrag.Binary64

/-! ## Whole numbers -/

/-- The whole number nearest to `q`; a half goes to the even neighbour. -/
def nearestWhole (q : ℚ) : ℤ :=
  if Int.fract q < 1 / 2 then ⌊q⌋
  else if 1 / 2 < Int.fract q then ⌊q⌋ + 1
  else if Even ⌊q⌋ then ⌊q⌋
  else ⌊q⌋ + 1

/-- Below the half, rounding goes down. -/
theorem nearestWhole_of_lt_half {q : ℚ} {n : ℤ} (h : n ≤ q) (h' : q < n + 1 / 2) : nearestWhole q = n := by
  have hf : ⌊q⌋ = n := Int.floor_eq_iff.2 ⟨h, by linarith⟩
  have hr : Int.fract q = q - n := by rw [Int.fract, hf]
  rw [nearestWhole, if_pos (by rw [hr]; linarith), hf]

/-- Above the half, it goes up. -/
theorem nearestWhole_of_half_lt {q : ℚ} {n : ℤ} (h : n + 1 / 2 < q) (h' : q < n + 1) : nearestWhole q = n + 1 := by
  have hf : ⌊q⌋ = n := Int.floor_eq_iff.2 ⟨by linarith, h'⟩
  have hr : Int.fract q = q - n := by rw [Int.fract, hf]
  rw [nearestWhole, if_neg (by rw [hr]; linarith), if_pos (by rw [hr]; linarith), hf]

/-- On the half, it goes to the even number. -/
theorem nearestWhole_of_half {q : ℚ} {n : ℤ} (h : q = n + 1 / 2) :
    nearestWhole q = if Even n then n else n + 1 := by
  have hf : ⌊q⌋ = n := Int.floor_eq_iff.2 ⟨by linarith, by linarith⟩
  have hr : Int.fract q = q - n := by rw [Int.fract, hf]
  rw [nearestWhole, if_neg (by rw [hr]; linarith), if_neg (by rw [hr]; linarith), hf]

/-- Whole numbers stay. -/
@[simp] theorem nearestWhole_intCast (n : ℤ) : nearestWhole n = n :=
  nearestWhole_of_lt_half le_rfl (by linarith)

/-- Every number lies in the lower half, the middle or the upper half between two whole numbers. -/
theorem whole_cases (q : ℚ) :
    ∃ n : ℤ, (n ≤ q ∧ q < n + 1 / 2) ∨ q = n + 1 / 2 ∨ ((n : ℚ) + 1 / 2 < q ∧ q < n + 1) := by
  refine ⟨⌊q⌋, ?_⟩
  have h := Int.floor_le q
  have h' := Int.lt_floor_add_one q
  rcases lt_trichotomy q (⌊q⌋ + 1 / 2) with hq | hq | hq
  · exact Or.inl ⟨h, hq⟩
  · exact Or.inr (Or.inl hq)
  · exact Or.inr (Or.inr ⟨hq, h'⟩)

/-- Rounding to a whole number moves by at most a half. -/
theorem abs_nearestWhole_sub_le (q : ℚ) : |(nearestWhole q : ℚ) - q| ≤ 1 / 2 := by
  rw [abs_le]
  obtain ⟨n, ⟨h, h'⟩ | h | ⟨h, h'⟩⟩ := whole_cases q
  · rw [nearestWhole_of_lt_half h h']
    constructor <;> linarith
  · rw [nearestWhole_of_half h]
    split <;> push_cast <;> constructor <;> linarith
  · rw [nearestWhole_of_half_lt h h']
    push_cast
    constructor <;> linarith

/-- A number is rounded to `n` when it is within a half of it, the half itself only when `n` is even. -/
theorem nearestWhole_eq_iff {q : ℚ} {n : ℤ} :
    nearestWhole q = n ↔ if Even n then n - 1 / 2 ≤ q ∧ q ≤ n + 1 / 2 else n - 1 / 2 < q ∧ q < n + 1 / 2 := by
  have even_pred : Even (n - 1) ↔ ¬Even n := Int.even_sub_one
  have below : q = n - 1 / 2 → nearestWhole q = if Even n then n else n - 1 := by
    intro hq
    rw [nearestWhole_of_half (n := n - 1) (by push_cast; linarith)]
    by_cases hn : Even n <;> simp [even_pred, hn]
  constructor
  · rintro rfl
    obtain ⟨h1, h2⟩ := abs_le.1 (abs_nearestWhole_sub_le q)
    split
    · exact ⟨by linarith, by linarith⟩
    · next odd =>
      refine ⟨lt_of_le_of_ne (by linarith) fun h => ?_, lt_of_le_of_ne (by linarith) fun h => ?_⟩
      · have := below h.symm
        rw [if_neg odd] at this
        omega
      · have := nearestWhole_of_half h
        rw [if_neg odd] at this
        omega
  · intro h
    have weak : n - 1 / 2 ≤ q ∧ q ≤ n + 1 / 2 := by
      split at h
      · exact h
      · exact ⟨h.1.le, h.2.le⟩
    rcases weak.1.eq_or_lt with h1 | h1
    · split at h
      · next even => rw [below h1.symm, if_pos even]
      · exact absurd h1 h.1.ne
    rcases weak.2.eq_or_lt with h2 | h2
    · split at h
      · next even => rw [nearestWhole_of_half h2, if_pos even]
      · exact absurd h2 h.2.ne
    rcases lt_or_ge q n with hq | hq
    · rw [nearestWhole_of_half_lt (n := n - 1) (by push_cast; linarith) (by push_cast; linarith), sub_add_cancel]
    · exact nearestWhole_of_lt_half hq h2

/-- Rounding to whole numbers keeps the order. -/
theorem nearestWhole_mono {q r : ℚ} (h : q ≤ r) : nearestWhole q ≤ nearestWhole r := by
  have hq := abs_le.1 (abs_nearestWhole_sub_le q)
  have hr := abs_le.1 (abs_nearestWhole_sub_le r)
  by_contra hlt
  have hstep : nearestWhole r + 1 ≤ nearestWhole q := by omega
  have hcast : (nearestWhole r : ℚ) + 1 ≤ nearestWhole q := by exact_mod_cast hstep
  have same_half : q = r := by linarith
  rw [same_half] at hstep
  omega

/-- It treats both signs alike. -/
theorem nearestWhole_neg (q : ℚ) : nearestWhole (-q) = -nearestWhole q := by
  obtain ⟨n, ⟨h, h'⟩ | h | ⟨h, h'⟩⟩ := whole_cases q
  · rw [nearestWhole_of_lt_half h h']
    rcases h.eq_or_lt with rfl | h
    · rw [← Int.cast_neg, nearestWhole_intCast]
    · rw [nearestWhole_of_half_lt (n := -n - 1) (by push_cast; linarith) (by push_cast; linarith)]
      ring
  · rw [nearestWhole_of_half h, nearestWhole_of_half (n := -n - 1) (by push_cast; linarith)]
    have hp : Even (-n - 1) ↔ ¬Even n := by
      rw [Int.even_sub_one, even_neg]
    by_cases he : Even n
    · rw [if_pos he, if_neg (fun h => hp.1 h he)]
      ring
    · rw [if_neg he, if_pos (hp.2 he)]
      ring
  · rw [nearestWhole_of_half_lt h h', nearestWhole_of_lt_half (n := -(n + 1)) (by push_cast; linarith)
      (by push_cast; linarith)]

/-- A whole number below `q` stays below what `q` is rounded to. -/
theorem le_nearestWhole {q : ℚ} {n : ℤ} (h : n ≤ q) : n ≤ nearestWhole q := by
  simpa using nearestWhole_mono h

/-- A whole number above `q` stays above what `q` is rounded to. -/
theorem nearestWhole_le {q : ℚ} {n : ℤ} (h : q ≤ n) : nearestWhole q ≤ n := by
  simpa using nearestWhole_mono h

/-- Even whole numbers may be added before rounding or after it. -/
theorem nearestWhole_add_even (q : ℚ) {n : ℤ} (hn : Even n) : nearestWhole (q + n) = nearestWhole q + n := by
  have h := nearestWhole_eq_iff.1 (rfl : nearestWhole q = nearestWhole q)
  rw [nearestWhole_eq_iff]
  by_cases even : Even (nearestWhole q)
  · rw [if_pos even] at h
    rw [if_pos (even.add hn)]
    push_cast
    constructor <;> linarith
  · rw [if_neg even] at h
    rw [if_neg fun sum => even ((Int.even_add.1 sum).2 hn)]
    push_cast
    constructor <;> linarith

/-- What half a whole number is rounded to. -/
theorem two_mul_nearestWhole_half (n : ℤ) :
    2 * nearestWhole (n / 2) = if n % 4 = 1 then n - 1 else if n % 4 = 3 then n + 1 else n := by
  obtain ⟨k, rfl | rfl⟩ := n.even_or_odd'
  · rw [if_neg (by omega), if_neg (by omega), show ((2 * k : ℤ) : ℚ) / 2 = k by push_cast; ring, nearestWhole_intCast]
  · rw [nearestWhole_of_half (n := k) (by push_cast; ring)]
    split <;> split_ifs <;> simp only [Int.even_iff] at * <;> omega

/-! ## The grid of the doubles -/

/-- The exponent of the spacing of doubles about `q`: a double has 53 significant bits and none below `2 ^ (-1074)`. -/
def grain (q : ℚ) : ℤ := max (Int.log 2 |q| - 52) (-1074)

/-- The number on the grid of the doubles that is nearest to `q`; a tie goes to the even neighbour. -/
def nearest (q : ℚ) : ℚ := nearestWhole (q / 2 ^ grain q) * 2 ^ grain q

/-- The grid of the doubles, continued beyond the largest one: at most 53 significant bits, none below `2 ^ (-1074)`. -/
def OnGrid (q : ℚ) : Prop := ∃ (k : ℤ) (e : ℤ), |k| ≤ 2 ^ 53 ∧ -1074 ≤ e ∧ q = k * 2 ^ e

theorem two_zpow_pos (e : ℤ) : (0 : ℚ) < 2 ^ e := zpow_pos (by norm_num) e

theorem grain_neg (q : ℚ) : grain (-q) = grain q := by
  rw [grain, grain, abs_neg]

theorem le_grain (q : ℚ) : -1074 ≤ grain q := le_max_right _ _

/-- Larger numbers have the larger spacing. -/
theorem grain_mono {q r : ℚ} (h : 0 < q) (h' : q ≤ r) : grain q ≤ grain r := by
  rw [grain, grain, abs_of_pos h, abs_of_pos (h.trans_le h')]
  have := Int.log_mono_right (b := 2) h h'
  omega

/-- A number has less than 53 bits above the spacing about it. -/
theorem abs_div_grain_lt (q : ℚ) : |q / 2 ^ grain q| < 2 ^ 53 := by
  have hp := two_zpow_pos (grain q)
  have h := Int.lt_zpow_succ_log_self (b := 2) (by decide) |q|
  rw [abs_div, abs_of_pos hp, div_lt_iff₀ hp, ← zpow_natCast, ← zpow_add₀ (by norm_num)]
  refine h.trans_le ?_
  rw [Nat.cast_ofNat]
  apply zpow_le_zpow_right₀ (by norm_num)
  rw [grain]
  push_cast
  omega

/-- Above the smallest spacing a number has the full 53 bits. -/
theorem le_abs_div_grain {q : ℚ} (h : q ≠ 0) (hg : grain q ≠ -1074) : 2 ^ 52 ≤ |q / 2 ^ grain q| := by
  have hp := two_zpow_pos (grain q)
  have hl := Int.zpow_log_le_self (b := 2) (by decide) (abs_pos.2 h)
  rw [abs_div, abs_of_pos hp, le_div_iff₀ hp, ← zpow_natCast, ← zpow_add₀ (by norm_num)]
  refine le_trans ?_ hl
  rw [Nat.cast_ofNat]
  apply zpow_le_zpow_right₀ (by norm_num)
  rw [grain] at hg ⊢
  omega

/-- Below a power of two the spacing is that of its 53 bits. -/
theorem grain_le_of_lt {q : ℚ} {e : ℤ} (h0 : q ≠ 0) (h : |q| < 2 ^ (e + 53)) (he : -1074 ≤ e) : grain q ≤ e := by
  have := (Int.lt_zpow_iff_log_lt (b := 2) (by decide) (abs_pos.2 h0)).1 (by simpa using h)
  rw [grain]
  omega

/-- At or above a power of two the spacing is at least that of its 53 bits. -/
theorem le_grain_of_le {q : ℚ} {e : ℤ} (h : 2 ^ (e + 52) ≤ |q|) : e ≤ grain q := by
  have := (Int.zpow_le_iff_le_log (b := 2) (by decide) ((two_zpow_pos _).trans_le h)).1 (by simpa using h)
  rw [grain]
  omega

/-! ## Rounding to the grid -/

@[simp] theorem nearest_zero : nearest 0 = 0 := by
  have h : nearestWhole 0 = 0 := by simpa using nearestWhole_intCast 0
  rw [nearest, zero_div, h, Int.cast_zero, zero_mul]

/-- Rounding treats both signs alike. -/
theorem nearest_neg (q : ℚ) : nearest (-q) = -nearest q := by
  rw [nearest, nearest, grain_neg, neg_div, nearestWhole_neg]
  push_cast
  ring

/-- It does not make a number negative. -/
theorem nearest_nonneg {q : ℚ} (h : 0 ≤ q) : 0 ≤ nearest q := by
  have : (0 : ℤ) ≤ nearestWhole (q / 2 ^ grain q) := le_nearestWhole (by
    rw [Int.cast_zero]
    exact div_nonneg h (two_zpow_pos _).le)
  exact mul_nonneg (by exact_mod_cast this) (two_zpow_pos _).le

/-- It works on the size. -/
theorem nearest_abs (q : ℚ) : nearest |q| = |nearest q| := by
  rcases le_total 0 q with h | h
  · rw [abs_of_nonneg h, abs_of_nonneg (nearest_nonneg h)]
  · have := nearest_nonneg (neg_nonneg.2 h)
    rw [nearest_neg] at this
    rw [abs_of_nonpos h, abs_of_nonpos (by linarith), nearest_neg]

/-- What a number is rounded to has at most 53 bits above the spacing. -/
theorem abs_nearestWhole_grain_le (q : ℚ) : |nearestWhole (q / 2 ^ grain q)| ≤ 2 ^ 53 := by
  obtain ⟨h1, h2⟩ := abs_lt.1 (abs_div_grain_lt q)
  rw [abs_le]
  exact ⟨le_nearestWhole (by push_cast; linarith), nearestWhole_le (by push_cast; linarith)⟩

/-- Above the smallest spacing, what a positive number is rounded to has the full 53 bits. -/
theorem le_nearestWhole_grain {q : ℚ} (h : 0 < q) (hg : grain q ≠ -1074) :
    2 ^ 52 ≤ nearestWhole (q / 2 ^ grain q) := by
  have h' := le_abs_div_grain h.ne' hg
  rw [abs_of_pos (div_pos h (two_zpow_pos _))] at h'
  exact le_nearestWhole (by exact_mod_cast h')

/-- It leads to the grid. -/
theorem nearest_onGrid (q : ℚ) : OnGrid (nearest q) :=
  ⟨_, _, abs_nearestWhole_grain_le q, le_grain q, rfl⟩

/-- A number on the grid is a whole multiple of the spacing about it. -/
theorem OnGrid.exists_mul_grain {q : ℚ} (h : OnGrid q) : ∃ n : ℤ, q = n * 2 ^ grain q := by
  obtain ⟨k, e, hk, he, rfl⟩ := h
  rcases eq_or_ne k 0 with rfl | h0
  · exact ⟨0, by simp⟩
  rcases hk.lt_or_eq with hk | power
  · have hlt : |(k : ℚ) * 2 ^ e| < 2 ^ (e + 53) := by
      rw [abs_mul, abs_of_pos (two_zpow_pos e), zpow_add₀ (by norm_num), mul_comm]
      exact mul_lt_mul_of_pos_left (by exact_mod_cast hk) (two_zpow_pos e)
    have hg := grain_le_of_lt (mul_ne_zero (by exact_mod_cast h0) (two_zpow_pos e).ne') hlt he
    refine ⟨k * 2 ^ (e - grain (k * 2 ^ e)).toNat, ?_⟩
    push_cast
    rw [mul_assoc, ← zpow_natCast, ← zpow_add₀ (by norm_num)]
    congr 2
    omega
  · have hlt : |(k : ℚ) * 2 ^ e| < 2 ^ (e + 1 + 53) := by
      have : |(k : ℚ)| = 2 ^ 53 := by exact_mod_cast power
      rw [abs_mul, abs_of_pos (two_zpow_pos e), this, show e + 1 + 53 = e + 54 by ring, zpow_add₀ (by norm_num), mul_comm]
      exact mul_lt_mul_of_pos_left (by norm_num) (two_zpow_pos e)
    have hg := grain_le_of_lt (mul_ne_zero (by exact_mod_cast h0) (two_zpow_pos e).ne') hlt (by omega)
    obtain ⟨j, hj⟩ : (2 : ℤ) ∣ k := by
      rcases abs_choice k with h | h <;> rw [h] at power <;> omega
    refine ⟨j * 2 ^ (e + 1 - grain (k * 2 ^ e)).toNat, ?_⟩
    push_cast
    rw [mul_assoc (j : ℚ), ← zpow_natCast, ← zpow_add₀ (by norm_num)]
    have : ((e + 1 - grain (k * 2 ^ e)).toNat : ℤ) + grain (k * 2 ^ e) = e + 1 := by omega
    rw [this, zpow_add₀ (by norm_num), hj]
    push_cast
    ring

/-- What is on the grid stays. -/
theorem nearest_of_onGrid {q : ℚ} (h : OnGrid q) : nearest q = q := by
  obtain ⟨n, hn⟩ := h.exists_mul_grain
  have hq : q / 2 ^ grain q = n := (div_eq_iff (two_zpow_pos _).ne').2 hn
  rw [nearest, hq, nearestWhole_intCast, ← hn]

/-- Rounding keeps the order of positive numbers. -/
theorem nearest_mono_of_pos {q r : ℚ} (h : 0 < q) (h' : q ≤ r) : nearest q ≤ nearest r := by
  rcases (grain_mono h h').eq_or_lt with hg | hg
  · rw [nearest, nearest, hg]
    gcongr
    exact nearestWhole_mono (by gcongr)
  · have power_between : (2 : ℚ) ^ 53 * 2 ^ grain q ≤ 2 ^ 52 * 2 ^ grain r := by
      have : (2 : ℚ) ^ (grain q + 53) ≤ 2 ^ (grain r + 52) := zpow_le_zpow_right₀ (by norm_num) (by omega)
      rw [zpow_add₀ (by norm_num), zpow_add₀ (by norm_num)] at this
      rw [mul_comm, mul_comm (2 ^ 52)]
      exact_mod_cast this
    calc nearest q ≤ 2 ^ 53 * 2 ^ grain q := by
          rw [nearest]
          gcongr
          exact_mod_cast (abs_le.1 (abs_nearestWhole_grain_le q)).2
      _ ≤ 2 ^ 52 * 2 ^ grain r := power_between
      _ ≤ nearest r := by
          rw [nearest]
          gcongr
          have := le_grain q
          exact_mod_cast le_nearestWhole_grain (h.trans_le h') (by omega)

/-- Rounding keeps the order. -/
theorem nearest_mono {q r : ℚ} (h : q ≤ r) : nearest q ≤ nearest r := by
  rcases lt_trichotomy q 0 with hq | rfl | hq
  · rcases lt_or_ge r 0 with hr | hr
    · have := nearest_mono_of_pos (neg_pos.2 hr) (neg_le_neg h)
      rw [nearest_neg, nearest_neg] at this
      linarith
    · have := nearest_nonneg (neg_nonneg.2 hq.le)
      rw [nearest_neg] at this
      linarith [nearest_nonneg hr]
  · rw [nearest_zero]
    exact nearest_nonneg h
  · exact nearest_mono_of_pos hq h

/-- A number on the grid bounds what is rounded below it. -/
theorem nearest_le {q b : ℚ} (hb : OnGrid b) (h : q ≤ b) : nearest q ≤ b :=
  (nearest_mono h).trans_eq (nearest_of_onGrid hb)

/-- A number on the grid bounds what is rounded above it. -/
theorem le_nearest {q b : ℚ} (hb : OnGrid b) (h : b ≤ q) : b ≤ nearest q :=
  (nearest_of_onGrid hb).symm.trans_le (nearest_mono h)

/-- The grid is symmetric. -/
theorem OnGrid.neg {q : ℚ} (h : OnGrid q) : OnGrid (-q) := by
  obtain ⟨k, e, hk, he, rfl⟩ := h
  exact ⟨-k, e, by rwa [abs_neg], he, by push_cast; ring⟩

/-- Doubling stays on the grid. -/
theorem OnGrid.two_mul {q : ℚ} (h : OnGrid q) : OnGrid (2 * q) := by
  obtain ⟨k, e, hk, he, rfl⟩ := h
  exact ⟨k, e + 1, hk, by omega, by rw [zpow_add_one₀ two_ne_zero]; ring⟩

/-- Whole numbers of 53 bits are on the grid. -/
theorem onGrid_intCast {n : ℤ} (h : |n| ≤ 2 ^ 53) : OnGrid n :=
  ⟨n, 0, h, by norm_num, by simp⟩

/-! ## Rounding to one spacing -/

/-- The multiple of `2 ^ e` that is nearest to `q`; a tie goes to the even one. -/
def nearestStep (e : ℤ) (q : ℚ) : ℚ := nearestWhole (q / 2 ^ e) * 2 ^ e

/-- Between two powers of two numbers are rounded to the spacing there. -/
theorem nearest_of_mem_Ico {q : ℚ} {e : ℤ} (h : |q| ∈ Set.Ico (2 ^ (e + 52)) (2 ^ (e + 53))) (he : -1074 ≤ e) :
    nearest q = nearestStep e q := by
  have h0 : q ≠ 0 := abs_pos.1 ((two_zpow_pos _).trans_le h.1)
  rw [nearest, nearestStep, le_antisymm (grain_le_of_lt h0 h.2 he) (le_grain_of_le h.1)]

/-- Even multiples may be added before rounding or after it. -/
theorem nearestStep_add_even (e : ℤ) (q : ℚ) {n : ℤ} (hn : Even n) : nearestStep e (q + n * 2 ^ e) = nearestStep e q + n * 2 ^ e := by
  rw [nearestStep, nearestStep, add_div, mul_div_cancel_right₀ _ (two_zpow_pos e).ne', nearestWhole_add_even _ hn, Int.cast_add, add_mul]

/-- Rounding to multiples of a step does not pass one downward. -/
theorem le_nearestStep {e n : ℤ} {q : ℚ} (h : n * 2 ^ e ≤ q) : n * 2 ^ e ≤ nearestStep e q := by
  have : n ≤ nearestWhole (q / 2 ^ e) := le_nearestWhole ((le_div_iff₀ (two_zpow_pos e)).2 h)
  exact mul_le_mul_of_nonneg_right (by exact_mod_cast this) (two_zpow_pos e).le

/-- Nor does it upward. -/
theorem nearestStep_le {e n : ℤ} {q : ℚ} (h : q ≤ n * 2 ^ e) : nearestStep e q ≤ n * 2 ^ e := by
  have : nearestWhole (q / 2 ^ e) ≤ n := nearestWhole_le ((div_le_iff₀ (two_zpow_pos e)).2 h)
  exact mul_le_mul_of_nonneg_right (by exact_mod_cast this) (two_zpow_pos e).le

/-- Numbers on a finer grid are rounded to one spacing more by their remainder modulo four: a tie goes to the even multiple. -/
theorem nearestStep_succ (e n : ℤ) :
    nearestStep (e + 1) (n * 2 ^ e) = (if n % 4 = 1 then n - 1 else if n % 4 = 3 then n + 1 else n : ℤ) * 2 ^ e := by
  have half : (n : ℚ) * 2 ^ e / 2 ^ (e + 1) = n / 2 := by
    rw [zpow_add_one₀ two_ne_zero, mul_comm (n : ℚ), mul_div_mul_left _ _ (two_zpow_pos e).ne']
  rw [nearestStep, half, ← two_mul_nearestWhole_half, zpow_add_one₀ two_ne_zero]
  push_cast
  ring

/-! ## Infinity -/

/-- Where infinity stands: the first power of two above the doubles. -/
def limit : ℚ := 2 ^ (1024 : ℤ)

theorem limit_pos : 0 < limit := two_zpow_pos _

theorem two_zpow_mul_two_zpow {a b : ℤ} (h : a + b = 1024) : (2 : ℚ) ^ a * 2 ^ b = limit := by
  rw [limit, ← zpow_add₀ (by norm_num), h]

/-- The limit is on the grid. -/
theorem onGrid_limit : OnGrid limit :=
  ⟨1, 1024, by norm_num, by norm_num, by rw [limit, Int.cast_one, one_mul]⟩

/-- A number cut off at the infinities. -/
def clamp (q : ℚ) : ℚ := max (-limit) (min limit q)

/-- Clamping keeps the order. -/
theorem clamp_mono {q r : ℚ} (h : q ≤ r) : clamp q ≤ clamp r :=
  max_le_max le_rfl (min_le_min le_rfl h)

/-- What is within the limit stays. -/
theorem clamp_of_abs_le {q : ℚ} (h : |q| ≤ limit) : clamp q = q := by
  obtain ⟨h1, h2⟩ := abs_le.1 h
  rw [clamp, min_eq_right h2, max_eq_right h1]

theorem clamp_of_le {q : ℚ} (h : limit ≤ q) : clamp q = limit := by
  rw [clamp, min_eq_left h, max_eq_right (by linarith [limit_pos])]

theorem clamp_neg (q : ℚ) : clamp (-q) = -clamp q := by
  have := limit_pos
  rw [clamp, clamp]
  rcases le_total limit q with h | h
  · rw [min_eq_left h, min_eq_right (by linarith), max_eq_left (by linarith), max_eq_right (by linarith)]
  · rcases le_total (-limit) q with h' | h'
    · rw [min_eq_right h, min_eq_right (by linarith), max_eq_right (by linarith), max_eq_right (by linarith)]
    · rw [min_eq_right h, min_eq_left (by linarith), max_eq_right (by linarith), max_eq_left (by linarith), neg_neg]

end GlobeDrag.Binary64
