import GlobeDrag.Proofs.Binary64.Arithmetic

/-!
# Whole numbers and remainders

What `round` and `modulo` deliver for finite doubles.

Main statements: `value_round` (rounding gives the nearest whole number, a half going away from zero, and it is exact),
`wholeAway_mono` and `wholeAway_neg` (that rounding keeps the order and is odd), `value_ofNat` (small whole numbers are doubles),
`value_timesPower` (and so are their powers), `remainder_exact` (a remainder is not rounded), and `isNearest_modulo` (one that is not
negative is rounded once).
-/

namespace GlobeDrag.Binary64

open Float.Model (Format UnpackedFloat)
open Float.Model.UnpackedFloat (Sign)

/-! ## The nearest whole number -/

/-- The whole number nearest to `q`; a half goes away from zero. -/
def wholeAway (q : ℚ) : ℤ := if 0 ≤ q then ⌊q + 1 / 2⌋ else -⌊-q + 1 / 2⌋

theorem wholeAway_of_nonneg {q : ℚ} (h : 0 ≤ q) : wholeAway q = ⌊q + 1 / 2⌋ := if_pos h

theorem wholeAway_nonneg {q : ℚ} (h : 0 ≤ q) : 0 ≤ wholeAway q := by
  rw [wholeAway_of_nonneg h]
  exact Int.floor_nonneg.2 (by linarith)

/-- Whole numbers stay. -/
@[simp] theorem wholeAway_intCast (n : ℤ) : wholeAway n = n := by
  rw [wholeAway]
  split
  · exact Int.floor_eq_iff.2 ⟨by linarith, by linarith⟩
  · rw [neg_eq_iff_eq_neg]
    exact Int.floor_eq_iff.2 ⟨by push_cast; linarith, by push_cast; linarith⟩

@[simp] theorem wholeAway_zero : wholeAway 0 = 0 := by
  exact_mod_cast wholeAway_intCast 0

/-- Rounding treats both signs alike. -/
theorem wholeAway_neg (q : ℚ) : wholeAway (-q) = -wholeAway q := by
  rcases lt_trichotomy q 0 with h | rfl | h
  · rw [wholeAway_of_nonneg (by linarith), wholeAway, if_neg (by linarith), neg_neg]
  · rw [neg_zero, wholeAway_zero, neg_zero]
  · rw [wholeAway, if_neg (by linarith), neg_neg, wholeAway_of_nonneg h.le]

theorem wholeAway_signed (s : Sign) (q : ℚ) : (wholeAway (signed s q) : ℚ) = signed s (wholeAway q) := by
  cases s
  · rw [signed_negative, signed_negative, wholeAway_neg, Int.cast_neg]
  · rfl

/-- It keeps the order. -/
theorem wholeAway_mono {q r : ℚ} (h : q ≤ r) : wholeAway q ≤ wholeAway r := by
  have hpos : ∀ {q r : ℚ}, 0 ≤ q → q ≤ r → wholeAway q ≤ wholeAway r := by
    intro q r hq h
    rw [wholeAway_of_nonneg hq, wholeAway_of_nonneg (hq.trans h)]
    exact Int.floor_le_floor (by linarith)
  rcases le_total 0 q with hq | hq
  · exact hpos hq h
  · have hn := wholeAway_neg q
    have := wholeAway_nonneg (neg_nonneg.2 hq)
    rcases le_total 0 r with hr | hr
    · have := wholeAway_nonneg hr
      omega
    · have := hpos (neg_nonneg.2 hr) (neg_le_neg h)
      have := wholeAway_neg r
      omega

/-- A whole number above `q` stays above what `q` is rounded to. -/
theorem wholeAway_le {q : ℚ} {n : ℤ} (h : q ≤ n) : wholeAway q ≤ n :=
  (wholeAway_mono h).trans_eq (wholeAway_intCast n)

/-- Rounding to a whole number moves by at most a half. -/
theorem abs_wholeAway_sub_le (q : ℚ) : |(wholeAway q : ℚ) - q| ≤ 1 / 2 := by
  rw [wholeAway, abs_le]
  split
  · have h1 := Int.floor_le (q + 1 / 2)
    have h2 := Int.lt_floor_add_one (q + 1 / 2)
    constructor <;> linarith
  · have h1 := Int.floor_le (-q + 1 / 2)
    have h2 := Int.lt_floor_add_one (-q + 1 / 2)
    push_cast
    constructor <;> linarith

/-! ## Rounding doubles -/

variable {x y : Float}

/-- The double made from a mantissa and an exponent is the one nearest to their number. -/
theorem isNearest_ofDyadic (s : Sign) (m : ℕ) (e : ℤ) : IsNearest (ofDyadic s m e) (signed s (m * 2 ^ e)) :=
  (isRounding_round s m e).isNearest

/-- Whole numbers of 53 bits are doubles. -/
theorem IsNearest.of_natCast {z : Float} {s : Sign} {n : ℕ} (hz : IsNearest z (signed s n)) (h : n ≤ 2 ^ 53) :
    z.isFinite = true ∧ value z = signed s n := by
  have hg : nearest (signed s n) = signed s n := by
    rw [nearest_signed, ← Int.cast_natCast, nearest_of_onGrid (onGrid_intCast (by rw [Nat.abs_cast]; exact_mod_cast h))]
  have hlt : |nearest (signed s n)| < limit := by
    have h53 : (n : ℚ) ≤ 2 ^ (53 : ℤ) := by exact_mod_cast h
    rw [hg, abs_signed, Nat.abs_cast]
    exact h53.trans_lt (zpow_lt_zpow_right₀ (by norm_num) (by norm_num))
  have hv := hz.of_abs_lt hlt
  rwa [hg] at hv

/-- A whole number of 53 bits is the double made from it. -/
theorem value_ofDyadic_natCast (s : Sign) {n : ℕ} (h : n ≤ 2 ^ 53) :
    (ofDyadic s n 0).isFinite = true ∧ value (ofDyadic s n 0) = signed s n := by
  have hn := isNearest_ofDyadic s n 0
  rw [zpow_zero, mul_one] at hn
  exact hn.of_natCast h

/-- A word is rounded once. -/
theorem isNearest_toFloat {n : ℕ} (h : n < 2 ^ 64) : IsNearest (UInt64.ofNat n).toFloat n := by
  have word : (UInt64.ofNat n).toNat = n := by
    rw [UInt64.toNat_ofNat']
    exact Nat.mod_eq_of_lt h
  have packed := (isRounding_normalize ((UInt64.ofNat n).toNat : ℤ) 0 .positive).isNearest
  rw [zpow_zero, mul_one, word] at packed
  change IsNearest (.ofModel (.pack (.normalize .binary64 ((UInt64.ofNat n).toNat : ℤ) 0 .positive))) n
  rw [word]
  exact_mod_cast packed

/-- A word of 53 bits is a double. -/
theorem value_toFloat {n : ℕ} (h : n ≤ 2 ^ 53) :
    (UInt64.ofNat n).toFloat.isFinite = true ∧ value (UInt64.ofNat n).toFloat = n :=
  IsNearest.of_natCast (s := .positive) (isNearest_toFloat (h.trans_lt (by decide))) h

/-- A whole number that is written in digits is itself. -/
theorem value_ofNat (n : ℕ) [n.AtLeastTwo] (h : n < 2 ^ 53) :
    (OfNat.ofNat n : Float).isFinite = true ∧ value (OfNat.ofNat n) = OfNat.ofNat n := by
  have unit : (OfNat.ofNat n : Float) = (UInt64.ofNat n).toFloat * 1 := by
    change Float.ofScientific n false 0 = _
    rw [Float.ofScientific, dif_pos ⟨h, by decide⟩]
    rfl
  obtain ⟨finite, exact⟩ := value_toFloat h.le
  have product := isNearest_mul finite isFinite_one
  rw [exact, value_one, mul_one] at product
  rw [unit, ← Nat.cast_ofNat]
  exact IsNearest.of_natCast (s := .positive) product h.le

/-! ## Powers of whole numbers -/

/-- A product of whole numbers is exact while it has 53 bits. -/
theorem value_mul_natCast {p b : ℕ} (hx : x.isFinite = true) (hp : value x = p) (hy : y.isFinite = true) (hb : value y = b)
    (h : p * b ≤ 2 ^ 53) : (x * y).isFinite = true ∧ value (x * y) = (p * b : ℕ) := by
  have product := isNearest_mul hx hy
  rw [hp, hb, ← Nat.cast_mul] at product
  exact product.of_natCast (s := .positive) h

/-- Multiplying by the base where the last digit of the exponent is one is exact as well. -/
theorem value_timesDigit {n p b : ℕ} (hx : x.isFinite = true) (hp : value x = p) (hy : y.isFinite = true) (hb : value y = b)
    (h : p * b ^ (n % 2) ≤ 2 ^ 53) :
    (if n % 2 = 1 then x * y else x).isFinite = true ∧ value (if n % 2 = 1 then x * y else x) = (p * b ^ (n % 2) : ℕ) := by
  rcases Nat.mod_two_eq_zero_or_one n with even | odd
  · rw [even, if_neg (by decide), pow_zero, mul_one]
    exact ⟨hx, hp⟩
  · rw [odd, pow_one] at h ⊢
    rw [if_pos rfl]
    exact value_mul_natCast hx hp hy hb h

/-- A whole number times a power of one is exact while it has 53 bits: no product on the way is larger. -/
theorem value_timesPower {n p b : ℕ} (hx : x.isFinite = true) (hp : value x = p) (hy : y.isFinite = true) (hb : value y = b)
    (h0 : 0 < p) (h1 : 0 < b) (h : p * b ^ n ≤ 2 ^ 53) :
    (timesPower x y n).isFinite = true ∧ value (timesPower x y n) = (p * b ^ n : ℕ) := by
  induction n using Nat.strongRecOn generalizing x y p b with
  | _ n ih =>
    have fewer : p * b ^ (n % 2) ≤ p * b ^ n := Nat.mul_le_mul_left p (Nat.pow_le_pow_right h1 (Nat.mod_le n 2))
    obtain ⟨finite, number⟩ := value_timesDigit hx hp hy hb (fewer.trans h)
    rw [timesPower]
    split
    · next last =>
      have whole : n % 2 = n := by omega
      rw [whole] at finite number ⊢
      exact ⟨finite, number⟩
    · next more =>
      have square : b * b ≤ p * b ^ n := by
        rw [← pow_two]
        exact (Nat.pow_le_pow_right h1 (by omega)).trans (Nat.le_mul_of_pos_left _ h0)
      obtain ⟨finite', number'⟩ := value_mul_natCast hy hb hy hb (square.trans h)
      have digits : p * b ^ (n % 2) * (b * b) ^ (n / 2) = p * b ^ n := by
        rw [← pow_two, ← pow_mul, mul_assoc, ← pow_add, Nat.mod_add_div]
      rw [← digits] at h ⊢
      exact ih (n / 2) (by omega) finite number finite' number' (by positivity) (by positivity) h

/-- The whole number nearest to a mantissa with a negative exponent, computed on whole numbers. -/
theorem wholeAway_mantissa (m : ℕ) {e : ℤ} (he : e < 0) :
    wholeAway (m * 2 ^ e) = ((2 * m + 1 <<< (-e).toNat) >>> ((-e).toNat + 1) : ℕ) := by
  have hk : e = -((-e).toNat : ℤ) := by omega
  generalize (-e).toNat = k at hk
  have hq : (m : ℚ) * 2 ^ e + 1 / 2 = (2 * m + 2 ^ k : ℕ) / (2 ^ (k + 1) : ℕ) := by
    rw [hk, zpow_neg, zpow_natCast]
    push_cast
    field_simp
    ring
  rw [wholeAway_of_nonneg (mul_nonneg (Nat.cast_nonneg _) (two_zpow_pos e).le), hq, Nat.one_shiftLeft,
    Nat.shiftRight_eq_div_pow]
  exact Rat.floor_natCast_div_natCast _ _

/-- Rounding to a whole number is exact. -/
theorem value_round (h : x.isFinite = true) :
    (round x).isFinite = true ∧ value (round x) = wholeAway (value x) := by
  rcases unpack_of_isFinite h with ⟨s, hu, hx⟩ | ⟨s, m, e, hm, hu, hx⟩
  · have hr : round x = x := by rw [round, hu]
    rw [hr, hx, wholeAway_zero, Int.cast_zero]
    exact ⟨h, rfl⟩
  · rcases le_or_gt 0 e with he | he
    · have hr : round x = x := by
        rw [round, hu]
        exact if_pos he
      have isWhole : (m : ℚ) * 2 ^ e = (m * 2 ^ e.toNat : ℤ) := by
        push_cast
        rw [← zpow_natCast, Int.toNat_of_nonneg he]
      rw [hr, hx, wholeAway_signed, isWhole, wholeAway_intCast]
      exact ⟨h, rfl⟩
    · have hr : round x = ofDyadic s ((2 * m + 1 <<< (-e).toNat) >>> ((-e).toNat + 1)) 0 := by
        rw [round, hu]
        exact if_neg (not_le.2 he)
      have hc := isCanonical_toModel x
      rw [hu] at hc
      have hw := wholeAway_mantissa m he
      have hle : wholeAway (m * 2 ^ e) ≤ (2 ^ 53 : ℕ) := by
        refine wholeAway_le ?_
        calc (m : ℚ) * 2 ^ e ≤ m * 1 :=
              mul_le_mul_of_nonneg_left (zpow_le_one_of_nonpos₀ (by norm_num) he.le) (Nat.cast_nonneg _)
          _ ≤ ((2 ^ 53 : ℕ) : ℤ) := by
              rw [mul_one]
              exact_mod_cast hc.1.le
      rw [hw] at hle
      obtain ⟨hf, hv⟩ := value_ofDyadic_natCast s (Int.ofNat_le.1 hle)
      rw [hr, hx, wholeAway_signed, hw]
      exact ⟨hf, hv⟩

/-! ## Remainders -/

/-- A mantissa at a smaller exponent. -/
theorem shiftLeft_mul (m : ℕ) {e g : ℤ} (h : g ≤ e) : ((m <<< (e - g).toNat : ℕ) : ℚ) * 2 ^ g = m * 2 ^ e := by
  rw [Nat.shiftLeft_eq]
  push_cast
  rw [mul_assoc, ← zpow_natCast, Int.toNat_of_nonneg (by omega), ← zpow_add₀ (by norm_num), sub_add_cancel]

/-- The remainder of a double other than zero is computed on whole numbers of one unit. What is left over has no more bits than a
double. -/
theorem exists_units (hx : x.isFinite = true) (hx0 : value x ≠ 0) (hy : y.isFinite = true) (h0 : 0 < value y) :
    ∃ (s : Sign) (m n : ℕ) (g : ℤ), remainder x y = ofDyadic s (m % n) g ∧ value x = signed s (m * 2 ^ g) ∧ value y = n * 2 ^ g ∧
      0 < n ∧ m % n < 2 ^ 53 ∧ -1074 ≤ g := by
  obtain ⟨n, f, hn, hv, hvy⟩ := unpack_of_pos hy h0
  rcases unpack_of_isFinite hx with ⟨s, -, hvx⟩ | ⟨s, m, e, hm, hu, hvx⟩
  · exact absurd hvx hx0
  · have cx := isCanonical_toModel x
    have cy := isCanonical_toModel y
    rw [hu] at cx
    rw [hv] at cy
    refine ⟨s, m <<< (e - min e f).toNat, n <<< (f - min e f).toNat, min e f, ?_, ?_, ?_, ?_, ?_, le_min cx.2.1 cy.2.1⟩
    · rw [remainder, hu, hv]
    · rw [hvx, shiftLeft_mul m (min_le_left e f)]
    · rw [hvy, shiftLeft_mul n (min_le_right e f)]
    · rw [Nat.shiftLeft_eq]
      exact Nat.mul_pos hn (by positivity)
    · rcases le_total e f with hef | hef
      · have unshifted : e - min e f = 0 := by omega
        rw [unshifted]
        exact (Nat.mod_le _ _).trans_lt cx.1
      · have unshifted : f - min e f = 0 := by omega
        rw [unshifted]
        exact (Nat.mod_lt _ hn).trans cy.1

/-- A remainder is exact: it is smaller than the divisor, and a whole number of divisors away from the number that is divided. -/
theorem remainder_exact (hx : x.isFinite = true) (hy : y.isFinite = true) (h0 : 0 < value y) :
    (remainder x y).isFinite = true ∧ |value (remainder x y)| < value y ∧
      ∃ k : ℤ, value (remainder x y) = value x - k * value y := by
  by_cases hx0 : value x = 0
  · obtain ⟨n, f, hn, hv, -⟩ := unpack_of_pos hy h0
    have hr : remainder x y = x := by
      rcases unpack_of_isFinite hx with ⟨s, hu, -⟩ | ⟨s, m, e, hm, hu, hvx⟩
      · rw [remainder, hu, hv]
      · rw [hx0, eq_comm, ← abs_eq_zero, abs_signed, abs_eq_zero] at hvx
        exact absurd hvx (mantissa_mul_pos hm e).ne'
    rw [hr, hx0, abs_zero]
    exact ⟨hx, h0, 0, by rw [Int.cast_zero, zero_mul, sub_zero]⟩
  · obtain ⟨s, m, n, g, hr, hvx, hvy, hn, size, hg⟩ := exists_units hx hx0 hy h0
    have hp := two_zpow_pos g
    have near := isNearest_ofDyadic s (m % n) g
    rw [← hr] at near
    have below : |signed s ((m % n : ℕ) * 2 ^ g)| < value y := by
      rw [abs_signed, abs_of_nonneg (mul_nonneg (Nat.cast_nonneg _) hp.le), hvy]
      exact mul_lt_mul_of_pos_right (by exact_mod_cast Nat.mod_lt m hn) hp
    have exact : nearest (signed s ((m % n : ℕ) * 2 ^ g)) = signed s ((m % n : ℕ) * 2 ^ g) := by
      rw [nearest_signed, nearest_of_onGrid ⟨(m % n : ℕ), g, by rw [Nat.abs_cast]; exact_mod_cast size.le, hg, by rw [Int.cast_natCast]⟩]
    obtain ⟨hf, hval⟩ := near.of_abs_lt (by
      rw [exact]
      exact below.trans ((le_abs_self _).trans_lt (abs_value_lt hy)))
    rw [exact] at hval
    obtain ⟨k, hk⟩ : ∃ k : ℕ, (m : ℚ) = n * k + (m % n : ℕ) := ⟨m / n, by exact_mod_cast (Nat.div_add_mod m n).symm⟩
    refine ⟨hf, by rwa [hval], s.apply k, ?_⟩
    rw [hval, signed_apply, Int.cast_natCast, hvx, hvy, hk]
    cases s
    · simp only [signed_negative]
      ring
    · simp only [signed_positive]
      ring

/-- A remainder that is not negative is the exact one, rounded once. -/
theorem isNearest_modulo (hx : x.isFinite = true) (hy : y.isFinite = true) (h0 : 0 < value y) :
    ∃ k : ℤ, 0 ≤ value x - k * value y ∧ value x - k * value y < value y ∧
      IsNearest (modulo x y) (value x - k * value y) := by
  obtain ⟨hr, hlt, k, hk⟩ := remainder_exact hx hy h0
  obtain ⟨low, high⟩ := abs_lt.1 hlt
  have sign := lt_iff_value_lt (isNaN_of_isFinite hr) (isNaN_of_isFinite isFinite_zero)
  rw [value_zero] at sign
  rw [modulo]
  split
  · next neg =>
    have hneg := sign.1 neg
    have next : value x - (k - 1 : ℤ) * value y = value (remainder x y) + value y := by
      rw [hk]
      push_cast
      ring
    refine ⟨k - 1, ?_, ?_, ?_⟩ <;> rw [next]
    · linarith
    · linarith
    · exact isNearest_add hr hy
  · next nonneg =>
    refine ⟨k, ?_, ?_, ?_⟩ <;> rw [← hk]
    · exact not_lt.1 fun h => nonneg (sign.2 h)
    · exact high
    · exact isNearest_value hr

/-- A remainder that is not negative lies between zero and the divisor. -/
theorem modulo_mem (hx : x.isFinite = true) (hy : y.isFinite = true) (h0 : 0 < value y) :
    (modulo x y).isFinite = true ∧ 0 ≤ value (modulo x y) ∧ value (modulo x y) ≤ value y := by
  obtain ⟨k, low, high, near⟩ := isNearest_modulo hx hy h0
  rw [← value_zero] at low
  obtain ⟨hf, -, h1, h2⟩ := near.of_mem_Icc isFinite_zero hy low high.le
  rw [value_zero] at h1
  exact ⟨hf, h1, h2⟩

end GlobeDrag.Binary64
