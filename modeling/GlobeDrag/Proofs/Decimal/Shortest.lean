import GlobeDrag.Decimal.Shortest
import GlobeDrag.Proofs.Binary64.Unpacked

/-!
# What the shortest decimal stands for

Exact numbers are rationals. The interval of a double holds the numbers that round to it, and the search of `shortest` ends at the
coarsest power of ten with a multiple in the interval.

Main statements: `Interval.contains_ofDouble_iff` (the interval against rounding) and `isShortest_shortest` (the search succeeds, and
passes over no coarser power).
-/

namespace GlobeDrag.Decimal

open Binary64
open Float.Model (UnpackedFloat)
open Float.Model.UnpackedFloat (Sign)

/-- The number that a decimal stands for. -/
def Scaled.number (d : Scaled) : ℚ := d.significand * 10 ^ d.exponent

/-! ## Powers of ten and of two -/

theorem ten_zpow_pos (k : ℤ) : (0 : ℚ) < 10 ^ k := zpow_pos (by norm_num) k

/-- A power of ten is below a power of two by comparing exponents. -/
theorem ten_zpow_le_two_zpow {k j n p : ℤ} (hp : 0 < p) (h : (10 : ℚ) ^ p ≤ 2 ^ n) (hk : 0 ≤ k) (hj : n * k ≤ p * j) :
    (10 : ℚ) ^ k ≤ 2 ^ j := by
  lift p to ℕ using hp.le
  lift k to ℕ using hk
  have powers : ((10 : ℚ) ^ (k : ℤ)) ^ p ≤ (2 ^ j) ^ p := by
    calc ((10 : ℚ) ^ (k : ℤ)) ^ p = (10 ^ (p : ℤ)) ^ k := by
          rw [zpow_natCast, zpow_natCast, pow_right_comm]
      _ ≤ (2 ^ n) ^ k := by gcongr
      _ = 2 ^ (n * k) := by rw [zpow_mul, zpow_natCast]
      _ ≤ 2 ^ (p * j) := zpow_le_zpow_right₀ (by norm_num) hj
      _ = (2 ^ j) ^ p := by rw [mul_comm, zpow_mul, zpow_natCast]
  exact (pow_le_pow_iff_left₀ (ten_zpow_pos _).le (two_zpow_pos _).le (by omega)).1 powers

/-- A power of two is below a power of ten by comparing exponents. -/
theorem two_zpow_le_ten_zpow {k j n p : ℤ} (hp : 0 < p) (h : (2 : ℚ) ^ n ≤ 10 ^ p) (hk : 0 ≤ k) (hj : p * j ≤ n * k) :
    (2 : ℚ) ^ j ≤ 10 ^ k := by
  lift p to ℕ using hp.le
  lift k to ℕ using hk
  have powers : ((2 : ℚ) ^ j) ^ p ≤ (10 ^ (k : ℤ)) ^ p := by
    calc ((2 : ℚ) ^ j) ^ p = 2 ^ (p * j) := by rw [mul_comm, zpow_mul, zpow_natCast]
      _ ≤ 2 ^ (n * k) := zpow_le_zpow_right₀ (by norm_num) hj
      _ = (2 ^ n) ^ k := by rw [zpow_mul, zpow_natCast]
      _ ≤ (10 ^ (p : ℤ)) ^ k := by
          have := two_zpow_pos n
          gcongr
      _ = (10 ^ (k : ℤ)) ^ p := by
          rw [zpow_natCast, zpow_natCast, pow_right_comm]
  exact (pow_le_pow_iff_left₀ (two_zpow_pos _).le (ten_zpow_pos _).le (by omega)).1 powers

/-- Powers with negative exponents compare the other way round. -/
theorem inv_zpow_le_inv_zpow {a b : ℚ} {j k : ℤ} (ha : 0 < a) (hb : 0 < b) (h : a ^ (-j) ≤ b ^ (-k)) : b ^ k ≤ a ^ j := by
  rw [zpow_neg, zpow_neg] at h
  exact (inv_le_inv₀ (zpow_pos ha _) (zpow_pos hb _)).1 h

namespace Interval

variable {i : Interval} {k : ℤ} {d : ℕ} {q r : ℚ}

/-! ## Numbers of an interval -/

/-- The unit of an interval as a number. -/
def unit (i : Interval) : ℚ := 2 ^ i.exponent

theorem unit_pos (i : Interval) : 0 < i.unit := two_zpow_pos _

/-- A number lies in the interval, its ends included when it is closed. -/
def Contains (i : Interval) (q : ℚ) : Prop :=
  if i.closed then i.low * i.unit ≤ q ∧ q ≤ i.high * i.unit else i.low * i.unit < q ∧ q < i.high * i.unit

/-- What an interval contains is not below its lower bound. -/
theorem Contains.low_le (h : i.Contains q) : i.low * i.unit ≤ q := by
  unfold Contains at h
  split at h
  · exact h.1
  · exact h.1.le

/-- Nor is it above its upper bound. -/
theorem Contains.le_high (h : i.Contains q) : q ≤ i.high * i.unit := by
  unfold Contains at h
  split at h
  · exact h.2
  · exact h.2.le

/-- An interval contains what is strictly between its bounds. -/
theorem contains_of_lt (h : i.low * i.unit < q) (h' : q < i.high * i.unit) : i.Contains q := by
  unfold Contains
  split
  · exact ⟨h.le, h'.le⟩
  · exact ⟨h, h'⟩

/-- What lies between two numbers of an interval lies in it. -/
theorem Contains.between (h : i.Contains q) (h' : i.Contains r) {s : ℚ} (hq : q ≤ s) (hr : s ≤ r) : i.Contains s := by
  unfold Contains at *
  split_ifs at *
  · exact ⟨h.1.trans hq, hr.trans h'.2⟩
  · exact ⟨h.1.trans_le hq, hr.trans_lt h'.2⟩

/-! ## Multiples of a power of ten -/

theorem scale_fst (i : Interval) (k : ℤ) : ((i.scale k).1 : ℚ) = 10 ^ (-k).toNat * 2 ^ i.exponent.toNat := by
  simp only [scale, Nat.shiftLeft_eq, Nat.pow_eq]
  push_cast
  rfl

theorem scale_snd (i : Interval) (k : ℤ) : ((i.scale k).2 : ℚ) = 10 ^ k.toNat * 2 ^ (-i.exponent).toNat := by
  simp only [scale, Nat.shiftLeft_eq, Nat.pow_eq]
  push_cast
  rfl

theorem scale_snd_pos (i : Interval) (k : ℤ) : (0 : ℚ) < (i.scale k).2 := by
  rw [scale_snd]
  positivity

/-- The fraction that `scale` gives is the unit over the power of ten. -/
theorem scale_eq (i : Interval) (k : ℤ) : ((i.scale k).1 : ℚ) * 10 ^ k = i.unit * (i.scale k).2 := by
  have ten : (10 : ℚ) ^ (-k).toNat * 10 ^ k = 10 ^ k.toNat := by
    rw [← zpow_natCast, ← zpow_add₀ (by norm_num), ← zpow_natCast]
    congr 1
    omega
  have two : (2 : ℚ) ^ i.exponent.toNat = i.unit * 2 ^ (-i.exponent).toNat := by
    rw [unit, ← zpow_natCast, ← zpow_natCast, ← zpow_add₀ (by norm_num)]
    congr 1
    omega
  rw [scale_fst, scale_snd, mul_right_comm, ten, two]
  ring

/-- Comparing whole numbers of units with multiples of a power of ten takes whole numbers only. -/
theorem compare_units (i : Interval) (k : ℤ) (n d : ℕ) :
    (n * (i.scale k).1 ≤ d * (i.scale k).2 ↔ n * i.unit ≤ d * 10 ^ k) ∧
      (d * (i.scale k).2 ≤ n * (i.scale k).1 ↔ d * 10 ^ k ≤ n * i.unit) := by
  have h2 := i.scale_snd_pos k
  have hk := ten_zpow_pos k
  have units : (n * i.unit) * (i.scale k).2 = (n * (i.scale k).1 : ℕ) * 10 ^ k := by
    rw [mul_assoc, ← scale_eq, Nat.cast_mul, mul_assoc]
  have multiples : (d * 10 ^ k : ℚ) * (i.scale k).2 = (d * (i.scale k).2 : ℕ) * 10 ^ k := by
    rw [Nat.cast_mul, mul_right_comm]
  constructor
  · rw [← mul_le_mul_iff_of_pos_right h2, units, multiples, mul_le_mul_iff_of_pos_right hk, Nat.cast_le]
  · rw [← mul_le_mul_iff_of_pos_right h2, units, multiples, mul_le_mul_iff_of_pos_right hk, Nat.cast_le]

/-- Whether an interval holds a multiple of a power of ten is decided on whole numbers. -/
theorem holds_iff : i.holds k d = true ↔ i.Contains (d * 10 ^ k) := by
  unfold holds Contains
  simp only
  split
  · rw [Bool.and_eq_true, decide_eq_true_iff, decide_eq_true_iff, (compare_units ..).1, (compare_units ..).2]
  · rw [Bool.and_eq_true, decide_eq_true_iff, decide_eq_true_iff, ← not_le, ← not_le, (compare_units ..).1, (compare_units ..).2, not_le, not_le]

/-- The multiple in front of the middle. -/
theorem floor_le_mid (i : Interval) (k : ℤ) : ((i.mid * (i.scale k).1 / (i.scale k).2 : ℕ) : ℚ) * 10 ^ k ≤ i.mid * i.unit :=
  (compare_units ..).2.1 (Nat.div_mul_le_self _ _)

/-- The multiple behind the middle. -/
theorem mid_lt_floor_add_one (i : Interval) (k : ℤ) :
    i.mid * i.unit < ((i.mid * (i.scale k).1 / (i.scale k).2 : ℕ) + 1 : ℚ) * 10 ^ k := by
  have h : ¬ ((i.mid * (i.scale k).1 / (i.scale k).2 + 1) * (i.scale k).2 ≤ i.mid * (i.scale k).1) := by
    have := Nat.lt_div_mul_add (a := i.mid * (i.scale k).1) (Nat.cast_pos.1 (i.scale_snd_pos k))
    rw [Nat.add_one_mul]
    omega
  rw [(compare_units ..).2, not_le] at h
  exact_mod_cast h

/-- What the search finds lies in the interval. -/
theorem contains_of_nearest? {tie : Tie} (h : i.nearest? tie k = some d) : i.Contains (d * 10 ^ k) := by
  unfold nearest? at h
  simp only at h
  split at h
  · next h1 h2 =>
    split at h
    · cases h
      exact holds_iff.1 h1
    · cases h
      exact holds_iff.1 h2
    · cases h
      split
      · exact holds_iff.1 h1
      · exact holds_iff.1 h2
    · cases h
      exact holds_iff.1 h2
  · next h1 _ =>
    cases h
    exact holds_iff.1 h1
  · next _ h2 =>
    cases h
    exact holds_iff.1 h2
  · cases h

/-- If a multiple lies in the interval, the search finds one. -/
theorem exists_nearest? (tie : Tie) (mid : i.Contains (i.mid * i.unit)) (h : i.Contains (d * 10 ^ k)) :
    ∃ n, i.nearest? tie k = some n := by
  have front := i.floor_le_mid k
  have behind := i.mid_lt_floor_add_one k
  have some_holds : i.holds k (i.mid * (i.scale k).1 / (i.scale k).2) = true ∨
      i.holds k (i.mid * (i.scale k).1 / (i.scale k).2 + 1) = true := by
    rw [holds_iff, holds_iff]
    have hk := ten_zpow_pos k
    rcases le_or_gt d (i.mid * (i.scale k).1 / (i.scale k).2) with hd | hd
    · refine Or.inl (h.between mid ?_ front)
      gcongr
    · refine Or.inr (mid.between h ?_ ?_)
      · exact_mod_cast behind.le
      · gcongr
        exact hd
  unfold nearest?
  simp only
  split
  · split <;> exact ⟨_, rfl⟩
  · exact ⟨_, rfl⟩
  · exact ⟨_, rfl⟩
  · next h1 h2 => simp [h1, h2] at some_holds

/-! ## Intervals of doubles -/

variable {s : Sign} {m : ℕ} {e : ℤ} {hm : 0 < m}

/-- Half a spacing above a double its interval ends. -/
theorem high_ofDouble (m : ℕ) (e : ℤ) : (ofDouble m e).high * (ofDouble m e).unit = (m + 1 / 2) * 2 ^ e := by
  change ((4 * m + 2 : ℕ) : ℚ) * 2 ^ (e - 2) = _
  rw [zpow_sub₀ (by norm_num)]
  push_cast
  ring

/-- It begins half a spacing below the double, or a quarter of one below a power of two. -/
theorem low_ofDouble (hm : 0 < m) (e : ℤ) : (ofDouble m e).low * (ofDouble m e).unit =
    (m - if m = 2 ^ 52 ∧ -1074 < e then 1 / 4 else 1 / 2) * 2 ^ e := by
  change ((4 * m - if m = 2 ^ 52 ∧ -1074 < e then 1 else 2 : ℕ) : ℚ) * 2 ^ (e - 2) = _
  rw [zpow_sub₀ (by norm_num)]
  split
  · rw [Nat.cast_sub (by omega)]
    push_cast
    ring
  · rw [Nat.cast_sub (by omega)]
    push_cast
    ring

/-- What the interval of a double contains. The bounds belong to it if the mantissa is even. -/
theorem contains_ofDouble (hm : 0 < m) : (ofDouble m e).Contains q ↔
    if Even m then m - (if m = 2 ^ 52 ∧ -1074 < e then 1 / 4 else 1 / 2 : ℚ) ≤ q / 2 ^ e ∧ q / 2 ^ e ≤ m + 1 / 2
    else m - (if m = 2 ^ 52 ∧ -1074 < e then 1 / 4 else 1 / 2 : ℚ) < q / 2 ^ e ∧ q / 2 ^ e < m + 1 / 2 := by
  have he := two_zpow_pos e
  have closed : (ofDouble m e).closed = true ↔ Even m := by
    rw [Nat.even_iff]
    exact decide_eq_true_iff
  unfold Contains
  simp only [low_ofDouble hm, high_ofDouble, closed, le_div_iff₀ he, lt_div_iff₀ he, div_le_iff₀ he, div_lt_iff₀ he]

/-- What the interval of a power of two contains. -/
theorem contains_ofDouble_power (he : -1074 < e) : (ofDouble (2 ^ 52) e).Contains q ↔
    2 ^ 52 - 1 / 4 ≤ q / 2 ^ e ∧ q / 2 ^ e ≤ 2 ^ 52 + 1 / 2 := by
  rw [contains_ofDouble (by decide), if_pos (by decide), if_pos ⟨rfl, he⟩]
  push_cast
  exact Iff.rfl

/-- The interval of a double reaches down into closer doubles from a power of two only. -/
theorem eq_power_of_contains (normal : 2 ^ 52 ≤ m) (below : q / 2 ^ e < 2 ^ 52) (h : (ofDouble m e).Contains q) : m = 2 ^ 52 := by
  have h2 := two_zpow_pos e
  have low : (m : ℚ) - 1 / 2 ≤ q / 2 ^ e := by
    rw [le_div_iff₀ h2]
    refine le_trans ?_ h.low_le
    rw [low_ofDouble (by omega)]
    gcongr
    split <;> norm_num
  have : (m : ℚ) < (2 ^ 52 : ℕ) + 1 := by
    push_cast
    linarith
  have : m < 2 ^ 52 + 1 := by exact_mod_cast this
  omega

/-- A number among closer doubles is rounded up to a power of two only, and from the half of its spacing. -/
theorem eq_power_of_nearest (normal : 2 ^ 52 ≤ m) (hg : grain q < e) (h : nearest q = m * 2 ^ e) :
    m = 2 ^ 52 ∧ grain q = e - 1 ∧ nearestWhole (q / 2 ^ grain q) = 2 ^ 53 := by
  obtain ⟨n, hn⟩ : ∃ n : ℕ, e = grain q + n := ⟨(e - grain q).toNat, by omega⟩
  have whole : nearestWhole (q / 2 ^ grain q) = m * 2 ^ n := by
    rw [nearest, hn, zpow_add₀ (by norm_num), mul_left_comm, mul_comm, mul_right_inj' (two_zpow_pos _).ne'] at h
    exact_mod_cast h
  have most : m * 2 ^ n ≤ 2 ^ 53 := by
    have := (abs_le.1 (abs_nearestWhole_grain_le q)).2
    rw [whole] at this
    exact_mod_cast this
  have one : n = 1 := by
    have : 2 ^ n ≤ 2 := Nat.le_of_mul_le_mul_left (most.trans (by omega : 2 ^ 53 ≤ m * 2)) (by omega)
    have : n < 2 := (Nat.pow_lt_pow_iff_right (by decide : 1 < 2)).1 (this.trans_lt (by decide))
    omega
  subst one
  have power : m = 2 ^ 52 := by omega
  refine ⟨power, by omega, ?_⟩
  rw [whole, power]
  norm_num

/-- Doubles that lie closer than `2 ^ e` below a number with 53 bits above `2 ^ e`: only a power of two has numbers there that are
rounded to it. -/
theorem contains_ofDouble_iff_of_grain_lt (normal : 2 ^ 52 ≤ m) (he : -1074 < e) (hq : 0 < q) (hg : grain q < e) :
    (ofDouble m e).Contains q ↔ nearest q = m * 2 ^ e := by
  have h2 := two_zpow_pos e
  have below : q / 2 ^ e < 2 ^ 52 := by
    rw [div_lt_iff₀ h2]
    by_contra h
    refine hg.not_ge (le_grain_of_le ?_)
    rw [abs_of_pos hq, zpow_add₀ (by norm_num), mul_comm]
    exact_mod_cast not_lt.1 h
  have twice : q / 2 ^ (e - 1) = 2 * (q / 2 ^ e) := by
    rw [zpow_sub₀ (by norm_num), zpow_one]
    field_simp
  constructor
  · intro h
    obtain rfl := eq_power_of_contains normal below h
    obtain ⟨low, -⟩ := (contains_ofDouble_power he).1 h
    have spacing : grain q = e - 1 := by
      refine le_antisymm (by omega) (le_grain_of_le ?_)
      rw [abs_of_pos hq, show e - 1 + 52 = 51 + e by ring, zpow_add₀ (by norm_num), ← le_div_iff₀ h2]
      linarith
    have whole : nearestWhole (q / 2 ^ grain q) = 2 ^ 53 := by
      rw [spacing, twice, nearestWhole_eq_iff, if_pos (by decide)]
      push_cast
      exact ⟨by linarith, by linarith⟩
    rw [nearest, whole, spacing, zpow_sub₀ (by norm_num)]
    push_cast
    ring
  · intro h
    obtain ⟨rfl, spacing, whole⟩ := eq_power_of_nearest normal hg h
    have near := (abs_le.1 (abs_nearestWhole_sub_le (q / 2 ^ grain q))).2
    rw [whole, spacing, twice] at near
    push_cast at near
    exact (contains_ofDouble_power he).2 ⟨by linarith, by linarith⟩

/-- The interval of a double holds the numbers that are rounded to it. -/
theorem contains_ofDouble_iff (h : IsCanonical (.finite s m e hm)) (hq : 0 < q) :
    (ofDouble m e).Contains q ↔ nearest q = m * 2 ^ e := by
  obtain ⟨top, least, normal⟩ := h
  have h2 := two_zpow_pos e
  rcases lt_trichotomy (grain q) e with hg | hg | hg
  · have := le_grain q
    exact contains_ofDouble_iff_of_grain_lt (normal.resolve_right (by omega)) (by omega) hq hg
  · rw [contains_ofDouble hm, nearest, hg, mul_left_inj' h2.ne']
    have low : m = 2 ^ 52 ∧ -1074 < e → (m : ℚ) ≤ q / 2 ^ e := by
      rintro ⟨rfl, he⟩
      have := le_abs_div_grain hq.ne' (by omega)
      rw [hg, abs_of_pos (div_pos hq h2)] at this
      exact_mod_cast this
    rw [← Int.cast_natCast (R := ℚ) m] at low ⊢
    rw [Int.cast_inj, nearestWhole_eq_iff]
    by_cases power : m = 2 ^ 52 ∧ -1074 < e
    · have := low power
      simp only [if_pos power, Int.even_coe_nat]
      split
      · exact ⟨fun h => ⟨by linarith, h.2⟩, fun h => ⟨by linarith, h.2⟩⟩
      · exact ⟨fun h => ⟨by linarith, h.2⟩, fun h => ⟨by linarith, h.2⟩⟩
    · simp only [if_neg power, Int.even_coe_nat]
  · have above : (2 : ℚ) ^ (e + 53) ≤ q := by
      by_contra h
      exact hg.not_ge (grain_le_of_lt hq.ne' (by rwa [abs_of_pos hq, ← not_le]) least)
    have room : (m + 1 / 2 : ℚ) * 2 ^ e < 2 ^ (e + 53) := by
      have : (m : ℚ) + 1 ≤ 2 ^ 53 := by exact_mod_cast top
      rw [add_comm e, zpow_add₀ (by norm_num)]
      refine mul_lt_mul_of_pos_right ?_ h2
      norm_num at this ⊢
      linarith
    constructor
    · intro h
      have := h.le_high
      rw [high_ofDouble] at this
      linarith
    · intro h
      have onGrid : OnGrid ((2 : ℚ) ^ (e + 53)) := ⟨1, e + 53, by norm_num, by omega, by push_cast; ring⟩
      have := le_nearest onGrid above
      rw [h] at this
      linarith

/-! ## The search -/

/-- The middle of an interval lies inside, and the whole interval below its double. -/
structure IsProper (i : Interval) : Prop where
  low_pos : 0 < i.low
  low_lt : i.low < i.mid
  lt_high : i.mid < i.high
  high_lt : i.high < 2 * i.mid

/-- The interval of a double is proper. -/
theorem isProper_ofDouble (hm : 0 < m) (e : ℤ) : (ofDouble m e).IsProper := by
  constructor
  · simp only [ofDouble]
    split <;> omega
  · simp only [ofDouble]
    split <;> omega
  · simp only [ofDouble]
    omega
  · simp only [ofDouble]
    omega

/-- A proper interval contains its middle. -/
theorem IsProper.contains_mid (h : i.IsProper) : i.Contains (i.mid * i.unit) := by
  have hu := i.unit_pos
  refine contains_of_lt ?_ ?_
  · exact mul_lt_mul_of_pos_right (by exact_mod_cast h.low_lt) hu
  · exact mul_lt_mul_of_pos_right (by exact_mod_cast h.lt_high) hu

/-- It has positive numbers only. -/
theorem IsProper.pos_of_contains (h : i.IsProper) (hq : i.Contains q) : 0 < q :=
  lt_of_lt_of_le (mul_pos (by exact_mod_cast h.low_pos) i.unit_pos) hq.low_le

/-- The search begins above the middle. -/
theorem mid_lt_coarsest (i : Interval) : i.mid * i.unit < 10 ^ i.coarsest := by
  have log : (i.mid : ℚ) < 2 ^ (i.mid.log2 + 1 : ℤ) := by
    have := Nat.lt_log2_self (n := i.mid)
    rw [← Nat.cast_add_one, zpow_natCast]
    exact_mod_cast this
  have two : i.mid * i.unit < 2 ^ (i.mid.log2 + 1 + i.exponent : ℤ) := by
    rw [zpow_add₀ (by norm_num)]
    exact mul_lt_mul_of_pos_right log i.unit_pos
  refine two.trans_le ?_
  simp only [coarsest]
  generalize (i.mid.log2 + 1 + i.exponent : ℤ) = b
  split
  · exact two_zpow_le_ten_zpow (n := 33) (p := 10) (by norm_num) (by norm_num) (by omega) (by omega)
  · refine inv_zpow_le_inv_zpow (by norm_num) (by norm_num) ?_
    exact ten_zpow_le_two_zpow (n := 10) (p := 3) (by norm_num) (by norm_num) (by omega) (by omega)

/-- The search ends below the unit. -/
theorem ten_zpow_le_unit (h : 0 < i.mid) (bits : i.mid < 2 ^ 55) (h1 : -1076 ≤ i.exponent) (h2 : i.exponent ≤ 1000) :
    10 ^ (i.coarsest - 63) ≤ i.unit := by
  have log : i.mid.log2 < 55 := (Nat.log2_lt h.ne').2 bits
  have bounds : 3 * (i.coarsest - 63) ≤ i.exponent ∧ (0 ≤ i.coarsest - 63 → 10 * (i.coarsest - 63) ≤ 3 * i.exponent) := by
    simp only [coarsest]
    split <;> omega
  rcases le_or_gt 0 (i.coarsest - 63) with hk | hk
  · exact ten_zpow_le_two_zpow (n := 10) (p := 3) (by norm_num) (by norm_num) hk (bounds.2 hk)
  · refine inv_zpow_le_inv_zpow (by norm_num) (by norm_num) ?_
    exact two_zpow_le_ten_zpow (n := 3) (p := 1) (by norm_num) (by norm_num) (by omega) (by omega)

/-- No multiple of a power of ten beyond the first one tried lies in the interval. -/
theorem IsProper.le_coarsest (h : i.IsProper) (hd : i.Contains (d * 10 ^ k)) : k ≤ i.coarsest := by
  have hu := i.unit_pos
  have top : (i.high : ℚ) < 2 * i.mid := by exact_mod_cast h.high_lt
  have top' := mul_lt_mul_of_pos_right top hu
  have above := i.mid_lt_coarsest
  by_contra hk
  have hd0 : d ≠ 0 := by
    rintro rfl
    have := h.pos_of_contains hd
    rw [Nat.cast_zero, zero_mul] at this
    exact this.ne rfl
  have one : (1 : ℚ) ≤ d := by exact_mod_cast Nat.one_le_iff_ne_zero.2 hd0
  have next : (10 : ℚ) ^ i.coarsest * 10 ≤ 10 ^ k := by
    rw [← zpow_add_one₀ (by norm_num)]
    exact zpow_le_zpow_right₀ (by norm_num) (by omega)
  have multiple : (10 : ℚ) ^ k ≤ d * 10 ^ k := le_mul_of_one_le_left (ten_zpow_pos k).le one
  have mid : 0 ≤ i.mid * i.unit := mul_nonneg (Nat.cast_nonneg _) hu.le
  linarith [hd.le_high]

/-- A power of ten up to the unit has a multiple in the interval. -/
theorem IsProper.exists_contains (h : i.IsProper) (hk : 10 ^ k ≤ i.unit) : ∃ d : ℕ, i.Contains (d * 10 ^ k) := by
  have front := i.floor_le_mid k
  have behind := i.mid_lt_floor_add_one k
  have room : (i.low : ℚ) + 1 ≤ i.mid := by exact_mod_cast h.low_lt
  have top : (i.mid : ℚ) < i.high := by exact_mod_cast h.lt_high
  have hu := i.unit_pos
  refine ⟨_, contains_of_lt ?_ (front.trans_lt (mul_lt_mul_of_pos_right top hu))⟩
  have := mul_le_mul_of_nonneg_right room hu.le
  rw [add_one_mul] at this behind
  linarith

/-- A decimal lies in an interval, and coarser powers of ten have no multiple there. -/
structure IsShortest (i : Interval) (d : Scaled) : Prop where
  contains : i.Contains d.number
  le_exponent : ∀ {n : ℕ} {k : ℤ}, i.Contains (n * 10 ^ k) → k ≤ d.exponent

end Interval

variable {m : ℕ} {e : ℤ}

/-- The search finds the coarsest power of ten with a multiple in the interval. -/
theorem isShortest_shortest (tie : Tie) (hm : 0 < m) (bits : m < 2 ^ 53) (h1 : -1074 ≤ e) (h2 : e ≤ 1000) :
    (Interval.ofDouble m e).IsShortest (shortest tie m e) := by
  have proper := Interval.isProper_ofDouble hm e
  have above := (Interval.ofDouble m e).mid_lt_coarsest
  have last : 10 ^ ((Interval.ofDouble m e).coarsest - 63) ≤ (Interval.ofDouble m e).unit :=
    Interval.ten_zpow_le_unit (by simp only [Interval.ofDouble]; omega) (by simp only [Interval.ofDouble]; omega)
      (by simp only [Interval.ofDouble]; omega) (by simp only [Interval.ofDouble]; omega)
  unfold shortest
  generalize Interval.ofDouble m e = i at *
  simp only
  cases hf : (List.range 64).findSome? fun (n : Nat) => (i.nearest? tie (i.coarsest - n)).map (⟨·, i.coarsest - n⟩ : ℕ → Scaled) with
  | none =>
    obtain ⟨d, hd⟩ := proper.exists_contains last
    obtain ⟨n, hn⟩ := Interval.exists_nearest? tie proper.contains_mid hd
    have := List.findSome?_eq_none_iff.1 hf 63 (by decide)
    rw [Nat.cast_ofNat, hn] at this
    cases this
  | some d =>
    obtain ⟨before, n, after, split, found, passed⟩ := List.findSome?_eq_some_iff.1 hf
    obtain ⟨a, ha, rfl⟩ := Option.map_eq_some_iff.1 found
    refine ⟨Interval.contains_of_nearest? ha, fun {b k} h => ?_⟩
    simp only [Option.getD_some]
    by_contra hk
    have hc := proper.le_coarsest h
    obtain ⟨j, hj, rfl⟩ : ∃ j : ℕ, j < n ∧ k = i.coarsest - j := ⟨(i.coarsest - k).toNat, by omega, by omega⟩
    have sorted : (before ++ n :: after).Pairwise (· < ·) := split ▸ List.pairwise_lt_range
    have hn : n ∈ List.range 64 := by simp [split]
    have mem : j ∈ before ++ n :: after := split ▸ List.mem_range.2 (hj.trans (List.mem_range.1 hn))
    have early : j ∈ before := by
      rcases List.mem_append.1 mem with hb | hb
      · exact hb
      · rcases List.mem_cons.1 hb with rfl | hb
        · exact absurd hj (lt_irrefl _)
        · have := (List.pairwise_cons.1 (List.pairwise_append.1 sorted).2.1).1 j hb
          omega
    obtain ⟨c, hc⟩ := Interval.exists_nearest? tie proper.contains_mid h
    have := passed j early
    rw [hc] at this
    cases this

/-! ## Sizes -/

namespace Interval.IsShortest

variable {i : Interval} {d : Scaled}

theorem significand_pos (h : i.IsShortest d) (proper : i.IsProper) : 0 < d.significand := by
  have := proper.pos_of_contains h.contains
  rw [Scaled.number] at this
  exact_mod_cast pos_of_mul_pos_left this (ten_zpow_pos _).le

/-- Ten times the power found is beyond the unit. -/
theorem unit_lt (h : i.IsShortest d) (proper : i.IsProper) : i.unit < 10 ^ (d.exponent + 1) := by
  by_contra hk
  obtain ⟨n, hn⟩ := proper.exists_contains (not_lt.1 hk)
  have := h.le_exponent hn
  omega

/-- The significand has hardly more digits than the end of the interval. -/
theorem significand_lt (h : i.IsShortest d) (proper : i.IsProper) : d.significand < 10 * i.high := by
  have hk := ten_zpow_pos d.exponent
  have ten := h.unit_lt proper
  rw [zpow_add_one₀ (by norm_num)] at ten
  have high : (0 : ℚ) < i.high := by exact_mod_cast (Nat.zero_le _).trans_lt proper.lt_high
  have : (d.significand : ℚ) * 10 ^ d.exponent < (10 * i.high) * 10 ^ d.exponent := by
    calc (d.significand : ℚ) * 10 ^ d.exponent ≤ i.high * i.unit := h.contains.le_high
      _ < i.high * (10 ^ d.exponent * 10) := by gcongr
      _ = 10 * i.high * 10 ^ d.exponent := by ring
  exact_mod_cast lt_of_mul_lt_mul_right this hk.le

end Interval.IsShortest

/-- What the shortest decimal of a double is like. -/
structure IsShortestOf (m : ℕ) (e : ℤ) (d : Scaled) : Prop where
  isShortest : (Interval.ofDouble m e).IsShortest d
  significand_pos : 0 < d.significand
  significand_lt : d.significand < 2 ^ 59
  le_exponent : -400 ≤ d.exponent
  exponent_le : d.exponent ≤ 308

/-- The decimal number that is found for a double is a shortest one for it. -/
theorem isShortestOf_shortest (tie : Tie) (hm : 0 < m) (bits : m < 2 ^ 53) (h1 : -1074 ≤ e) (h2 : e ≤ 971) :
    IsShortestOf m e (shortest tie m e) := by
  have proper := Interval.isProper_ofDouble hm e
  have h := isShortest_shortest tie hm bits h1 (h2.trans (by norm_num))
  have pos := h.significand_pos proper
  refine ⟨h, pos, (h.significand_lt proper).trans ?_, ?_, ?_⟩
  · simp only [Interval.ofDouble]
    omega
  · have least : (10 : ℚ) ^ (-400 : ℤ) < 10 ^ ((shortest tie m e).exponent + 1) := by
      calc (10 : ℚ) ^ (-400 : ℤ) ≤ 2 ^ (-1076 : ℤ) := by
            refine inv_zpow_le_inv_zpow (by norm_num) (by norm_num) ?_
            exact two_zpow_le_ten_zpow (n := 3) (p := 1) (by norm_num) (by norm_num) (by norm_num) (by norm_num)
        _ ≤ 2 ^ (e - 2) := zpow_le_zpow_right₀ (by norm_num) (by omega)
        _ < 10 ^ ((shortest tie m e).exponent + 1) := h.unit_lt proper
    have := (zpow_lt_zpow_iff_right₀ (by norm_num)).1 least
    omega
  · have one : (1 : ℚ) ≤ (shortest tie m e).significand := by exact_mod_cast pos
    have top : (m : ℚ) + 1 / 2 < 2 ^ 53 := by
      have : (m : ℚ) + 1 ≤ 2 ^ 53 := by exact_mod_cast bits
      linarith
    have most : (10 : ℚ) ^ (shortest tie m e).exponent < 10 ^ (309 : ℤ) := by
      calc (10 : ℚ) ^ (shortest tie m e).exponent ≤ (shortest tie m e).number :=
            le_mul_of_one_le_left (ten_zpow_pos _).le one
        _ ≤ (m + 1 / 2) * 2 ^ e := (h.contains.le_high).trans_eq (Interval.high_ofDouble m e)
        _ < 2 ^ 53 * 2 ^ e := mul_lt_mul_of_pos_right top (two_zpow_pos e)
        _ = 2 ^ (53 + e) := by rw [zpow_add₀ (by norm_num), zpow_ofNat]
        _ ≤ 10 ^ (309 : ℤ) :=
            two_zpow_le_ten_zpow (n := 93) (p := 28) (by norm_num) (by norm_num) (by norm_num) (by omega)
    have := (zpow_lt_zpow_iff_right₀ (by norm_num)).1 most
    omega

end GlobeDrag.Decimal
