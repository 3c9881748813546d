import GlobeDrag.Proofs.Binary64.Value

/-!
# Arithmetic on doubles

Each operation of the model gives the double nearest to the exact result.

Main statements: `isNearest_add`, `isNearest_sub`, `isNearest_mul` and `isNearest_div`, for finite operands; `value_neg`; and what
infinite operands lead to (`value_add_of_infinite` and its like).
-/

namespace GlobeDrag.Binary64

open Float.Model (Format UnpackedFloat totalExponent)
open Float.Model.UnpackedFloat

/-! ## Unpacked operands -/

theorem signed_mul (s s' : Sign) (q r : ℚ) : signed (s * s') (q * r) = signed s q * signed s' r := by
  cases s <;> cases s'
  · exact (neg_mul_neg q r).symm
  · exact (neg_mul q r).symm
  · exact (mul_neg q r).symm
  · rfl

theorem signed_div (s s' : Sign) (q r : ℚ) : signed (s / s') (q / r) = signed s q / signed s' r := by
  cases s <;> cases s'
  · exact (neg_div_neg_eq q r).symm
  · exact (neg_div r q).symm
  · exact (div_neg q).symm
  · rfl

/-- Lowering an exponent keeps the number. -/
theorem decreaseExponent_mul (m : ℕ) {e t : ℤ} (h : t ≤ e) :
    ((decreaseExponent m e t).1 : ℚ) * 2 ^ t = m * 2 ^ e := by
  have he : ((e - t).toNat : ℤ) + t = e := by omega
  rw [decreaseExponent, Nat.shiftLeft_eq, Nat.cast_mul, Nat.cast_pow, Nat.cast_ofNat, mul_assoc, ← zpow_natCast,
    ← zpow_add₀ (by norm_num), he]

/-- A mantissa at a smaller exponent stands for the same number. -/
theorem signed_decreaseExponent (s : Sign) (m : ℕ) {e t : ℤ} (h : t ≤ e) :
    ((s.apply (decreaseExponent m e t).1 : ℤ) : ℚ) * 2 ^ t = signed s (m * 2 ^ e) := by
  rw [signed_apply, ← decreaseExponent_mul m h]
  cases s
  · exact neg_mul _ _
  · rfl

variable {u v : UnpackedFloat}

/-- The model rounds a sum once. -/
theorem isRounding_add (hu : IsCanonical u) (hv : IsCanonical v) (fu : u.isFinite = true) (fv : v.isFinite = true) :
    IsRounding (add .binary64 u v) (rational u + rational v) := by
  cases u with
  | infinity s => cases fu
  | notANumber => cases fu
  | zero s =>
    cases v with
    | infinity s' => cases fv
    | notANumber => cases fv
    | zero s' =>
      have h : rational (.zero s) + rational (.zero s') = 0 := add_zero 0
      simp only [add, h]
      split <;> exact isRounding_zero _
    | finite s' m' e' hm' =>
      have h : rational (.zero s) + rational (.finite s' m' e' hm') = rational (.finite s' m' e' hm') := zero_add _
      rw [h]
      exact hv.isRounding rfl
  | finite s m e hm =>
    cases v with
    | infinity s' => cases fv
    | notANumber => cases fv
    | zero s' =>
      have h : rational (.finite s m e hm) + rational (.zero s') = rational (.finite s m e hm) := add_zero _
      rw [h]
      exact hu.isRounding rfl
    | finite s' m' e' hm' =>
      have h := isRounding_normalize (s.apply (decreaseExponent m e (min e e')).1 +
        s'.apply (decreaseExponent m' e' (min e e')).1) (min e e') .positive
      rwa [Int.cast_add, add_mul, signed_decreaseExponent s m (min_le_left _ _),
        signed_decreaseExponent s' m' (min_le_right _ _)] at h

/-- Negation keeps the canonical form and changes the sign of the number. -/
theorem isCanonical_neg (hu : IsCanonical u) : IsCanonical u.neg := by
  cases u <;> exact hu

theorem rational_neg (u : UnpackedFloat) : rational u.neg = -rational u := by
  cases u with
  | infinity s => exact signed_neg s limit
  | notANumber => exact neg_zero.symm
  | zero s => exact neg_zero.symm
  | finite s m e hm => exact signed_neg s _

theorem apply_neg (s : Sign) (n : ℤ) : (-s).apply n = -s.apply n := by
  cases s
  · exact (neg_neg n).symm
  · rfl

/-- A difference is a sum with the opposite. -/
theorem sub_eq_add (u v : UnpackedFloat) : sub .binary64 u v = add .binary64 u v.neg := by
  cases u with
  | infinity s =>
    cases v with
    | infinity s' => cases s <;> cases s' <;> rfl
    | _ => rfl
  | notANumber => cases v <;> rfl
  | zero s =>
    cases v with
    | zero s' => cases s <;> cases s' <;> rfl
    | _ => rfl
  | finite s m e hm =>
    cases v with
    | finite s' m' e' hm' => simp only [sub, add, neg, apply_neg, sub_eq_add_neg]
    | _ => rfl

/-- The model rounds a difference once. -/
theorem isRounding_sub (hu : IsCanonical u) (hv : IsCanonical v) (fu : u.isFinite = true) (fv : v.isFinite = true) :
    IsRounding (sub .binary64 u v) (rational u - rational v) := by
  have fv' : v.neg.isFinite = true := by cases v <;> exact fv
  rw [sub_eq_add, sub_eq_add_neg, ← rational_neg]
  exact isRounding_add hu (isCanonical_neg hv) fu fv'

/-- The product of two mantissas has enough bits for rounding. -/
theorem add_le_grain_mul {s s' : Sign} {m m' : ℕ} {e e' : ℤ} {hm : 0 < m} {hm' : 0 < m'}
    (h : IsCanonical (.finite s m e hm)) (h' : IsCanonical (.finite s' m' e' hm')) :
    e + e' ≤ grain ((m * m' : ℕ) * 2 ^ (e + e')) := by
  have hlarge : 2 ^ 52 ≤ m * m' → e + e' ≤ grain ((m * m' : ℕ) * 2 ^ (e + e')) := by
    intro hle
    apply le_grain_of_le
    rw [abs_of_nonneg (mul_nonneg (Nat.cast_nonneg _) (two_zpow_pos _).le), zpow_add₀ (by norm_num), mul_comm]
    exact mul_le_mul_of_nonneg_right (by exact_mod_cast hle) (two_zpow_pos _).le
  rcases h.2.2 with hm52 | he
  · exact hlarge (hm52.trans (Nat.le_mul_of_pos_right m hm'))
  · rcases h'.2.2 with hm52 | he'
    · exact hlarge (hm52.trans (Nat.le_mul_of_pos_left m' hm))
    · have := le_grain ((m * m' : ℕ) * 2 ^ (e + e'))
      omega

/-- The model rounds a product once. -/
theorem isRounding_mul (hu : IsCanonical u) (hv : IsCanonical v) (fu : u.isFinite = true) (fv : v.isFinite = true) :
    IsRounding (mul .binary64 u v) (rational u * rational v) := by
  cases u with
  | infinity s => cases fu
  | notANumber => cases fu
  | zero s =>
    have h : rational (.zero s) * rational v = 0 := zero_mul _
    rw [h]
    cases v with
    | infinity s' => cases fv
    | notANumber => cases fv
    | zero s' => exact isRounding_zero _
    | finite s' m' e' hm' => exact isRounding_zero _
  | finite s m e hm =>
    cases v with
    | infinity s' => cases fv
    | notANumber => cases fv
    | zero s' =>
      have h : rational (.finite s m e hm) * rational (.zero s') = 0 := mul_zero _
      rw [h]
      exact isRounding_zero _
    | finite s' m' e' hm' =>
      have hq : ((m * m' : ℕ) : ℚ) * 2 ^ (e + e') = m * 2 ^ e * (m' * 2 ^ e') := by
        rw [zpow_add₀ (by norm_num), Nat.cast_mul]
        ring
      have hr := isRounding_roundWithAccuracy (a := .exact) (mantissa_mul_pos (Nat.mul_pos hm hm') (e + e'))
        (mul_div_cancel_right₀ _ (two_zpow_pos _).ne') (add_le_grain_mul hu hv) (s * s')
      rw [hq, signed_mul] at hr
      exact hr

/-- The accuracy of a quotient is what its remainder tells. -/
theorem within_accuracyOfFraction (n : ℕ) {d : ℕ} (hd : 0 < d) :
    Within (n / d : ℚ) (n / d) (accuracyOfFraction (n % d) d) := by
  have hd' : (0 : ℚ) < d := by exact_mod_cast hd
  have hn : (n : ℚ) / d = (n / d : ℕ) + (n % d : ℕ) / d := by
    have : (n : ℚ) = d * (n / d : ℕ) + (n % d : ℕ) := by exact_mod_cast (Nat.div_add_mod n d).symm
    rw [div_eq_iff hd'.ne', add_mul, div_mul_cancel₀ _ hd'.ne', mul_comm]
    exact this
  have hlt : ((n % d : ℕ) : ℚ) / d < 1 := (div_lt_one hd').2 (by exact_mod_cast Nat.mod_lt n hd)
  rw [accuracyOfFraction, hn]
  generalize n % d = r at hlt
  split
  · next h =>
    rw [h, Nat.cast_zero, zero_div, add_zero]
    rfl
  · next h =>
    have hr : (0 : ℚ) < r := by exact_mod_cast Nat.pos_of_ne_zero h
    have hpos : (0 : ℚ) < r / d := div_pos hr hd'
    rcases lt_trichotomy (2 * r) d with h2 | h2 | h2
    · have : (r : ℚ) / d < 1 / 2 := by
        rw [div_lt_iff₀ hd']
        have : (2 : ℚ) * r < d := by exact_mod_cast h2
        linarith
      rw [compare_lt_iff_lt.2 h2]
      exact ⟨by linarith, by linarith⟩
    · have : (r : ℚ) / d = 1 / 2 := by
        rw [div_eq_iff hd'.ne']
        have : (2 : ℚ) * r = d := by exact_mod_cast h2
        linarith
      rw [compare_eq_iff_eq.2 h2, this]
      rfl
    · have : (1 : ℚ) / 2 < r / d := by
        rw [lt_div_iff₀ hd']
        have : (d : ℚ) < 2 * r := by exact_mod_cast h2
        linarith
      rw [compare_gt_iff_gt.2 h2]
      exact ⟨by linarith, by linarith⟩

/-- The quotient of two mantissas has enough bits for rounding at the exponent that the model chooses. -/
theorem targetExponent_sub_le_grain_div {m m' : ℕ} (hm : 0 < m) (hm' : 0 < m') (e e' : ℤ) :
    Format.binary64.targetExponent (totalExponent m e - totalExponent m' e') ≤ grain (m * 2 ^ e / (m' * 2 ^ e')) := by
  have hp := mantissa_mul_pos hm e
  have hp' := mantissa_mul_pos hm' e'
  have h1 : (2 : ℚ) ^ m.log2 ≤ m := by exact_mod_cast Nat.log2_self_le hm.ne'
  have h2 : (m' : ℚ) ≤ 2 ^ (m'.log2 + 1) := by exact_mod_cast (Nat.lt_log2_self (n := m')).le
  have hlog : (m.log2 + e - (m'.log2 + 1 + e') : ℤ) ≤ Int.log 2 (m * 2 ^ e / (m' * 2 ^ e') : ℚ) := by
    refine (Int.zpow_le_iff_le_log (b := 2) (by decide) (div_pos hp hp')).1 ?_
    rw [Nat.cast_ofNat, zpow_sub₀ (by norm_num), zpow_add₀ (by norm_num), zpow_add₀ (by norm_num), zpow_natCast,
      ← Nat.cast_succ, zpow_natCast]
    exact div_le_div₀ hp.le (mul_le_mul_of_nonneg_right h1 (two_zpow_pos _).le) hp'
      (mul_le_mul_of_nonneg_right h2 (two_zpow_pos _).le)
  rw [grain, abs_of_pos (div_pos hp hp')]
  simp only [Format.targetExponent, totalExponent, Format.mantissaBits, Format.minExponent]
  norm_num
  omega

/-- The model rounds a quotient once. -/
theorem isRounding_div (fu : u.isFinite = true) (fv : v.isFinite = true) (h0 : rational v ≠ 0) :
    IsRounding (div .binary64 u v) (rational u / rational v) := by
  cases v with
  | infinity s' => cases fv
  | notANumber => cases fv
  | zero s' => exact absurd rfl h0
  | finite s' m' e' hm' =>
    cases u with
    | infinity s => cases fu
    | notANumber => cases fu
    | zero s =>
      have h : rational (.zero s) / rational (.finite s' m' e' hm') = 0 := zero_div _
      rw [h]
      exact isRounding_zero _
    | finite s m e hm =>
      have hp := mantissa_mul_pos hm e
      have hp' := mantissa_mul_pos hm' e'
      let lowered := min (e - e') (Format.binary64.targetExponent (totalExponent m e - totalExponent m' e'))
      have ht : (m * 2 ^ e / (m' * 2 ^ e') : ℚ) / 2 ^ lowered = (m <<< (e - e' - lowered).toNat : ℕ) / m' := by
        have he : ((e - e' - lowered).toNat : ℤ) = e - e' - lowered := Int.toNat_of_nonneg (by omega)
        rw [Nat.shiftLeft_eq, Nat.cast_mul, Nat.cast_pow, Nat.cast_ofNat, ← zpow_natCast, he, zpow_sub₀ (by norm_num),
          zpow_sub₀ (by norm_num)]
        field_simp
      have hw := within_accuracyOfFraction (m <<< (e - e' - lowered).toNat) hm'
      rw [← ht] at hw
      have hr := isRounding_roundWithAccuracy (div_pos hp hp') hw
        ((min_le_right _ _).trans (targetExponent_sub_le_grain_div hm hm' e e')) (s / s')
      rw [signed_div] at hr
      exact hr

/-! ## Operations on doubles -/

/-- The double nearest to `q`, infinite when `q` is too large. -/
structure IsNearest (z : Float) (q : ℚ) : Prop where
  isNaN_eq : z.isNaN = false
  value_eq : value z = clamp (nearest q)

/-- What a packed rounding delivers. -/
theorem IsRounding.isNearest {u : UnpackedFloat} {q : ℚ} (h : IsRounding u q) : IsNearest (.ofModel (.pack u)) q := by
  have hu : (Float.ofModel (.pack u)).toModel.unpack = bounded u := unpack_pack h.canonical
  refine ⟨?_, ?_⟩
  · change (Float.ofModel (.pack u)).toModel.unpack.isNaN = false
    rw [hu, isNaN_bounded]
    have hf := h.finite
    cases u <;> first | rfl | cases hf
  · rw [value, hu, rational_bounded h.canonical, h.rational_eq]

variable {x y z : Float} {q : ℚ}

/-- A sum of finite doubles is the double nearest to the exact one. -/
theorem isNearest_add (hx : x.isFinite = true) (hy : y.isFinite = true) : IsNearest (x + y) (value x + value y) :=
  (isRounding_add (isCanonical_toModel x) (isCanonical_toModel y) hx hy).isNearest

/-- So is a difference. -/
theorem isNearest_sub (hx : x.isFinite = true) (hy : y.isFinite = true) : IsNearest (x - y) (value x - value y) :=
  (isRounding_sub (isCanonical_toModel x) (isCanonical_toModel y) hx hy).isNearest

/-- So is a product. -/
theorem isNearest_mul (hx : x.isFinite = true) (hy : y.isFinite = true) : IsNearest (x * y) (value x * value y) :=
  (isRounding_mul (isCanonical_toModel x) (isCanonical_toModel y) hx hy).isNearest

/-- So is a quotient, if the divisor is not zero. -/
theorem isNearest_div (hx : x.isFinite = true) (hy : y.isFinite = true) (h0 : value y ≠ 0) :
    IsNearest (x / y) (value x / value y) :=
  (isRounding_div hx hy h0).isNearest

theorem toModel_neg (x : Float) : (-x).toModel.unpack = x.toModel.unpack.neg := by
  have h : (-x).toModel.unpack = bounded x.toModel.unpack.neg := unpack_pack (isCanonical_neg (isCanonical_toModel x))
  have hb := bounded_toModel x
  rw [h]
  cases hu : x.toModel.unpack with
  | infinity s => rfl
  | notANumber => rfl
  | zero s => rfl
  | finite s m e hm =>
    rw [hu, bounded] at hb
    change (if e ≤ 971 then _ else _) = _
    split at hb
    · next he => exact if_pos he
    · cases hb

@[simp] theorem value_neg (x : Float) : value (-x) = -value x := by
  rw [value, toModel_neg, rational_neg, value]

@[simp] theorem isNaN_neg (x : Float) : (-x).isNaN = x.isNaN := by
  change (-x).toModel.unpack.isNaN = x.toModel.unpack.isNaN
  rw [toModel_neg]
  cases x.toModel.unpack <;> rfl

@[simp] theorem isFinite_neg (x : Float) : (-x).isFinite = x.isFinite := by
  change (-x).toModel.unpack.isFinite = x.toModel.unpack.isFinite
  rw [toModel_neg]
  cases x.toModel.unpack <;> rfl

/-! ## Finite results -/

/-- A number that is rounded to less than infinity is delivered as it is. -/
theorem IsNearest.of_abs_lt (h : IsNearest z q) (hq : |nearest q| < limit) :
    z.isFinite = true ∧ value z = nearest q := by
  have hv : value z = nearest q := by rw [h.value_eq, clamp_of_abs_le hq.le]
  exact ⟨isFinite_iff.2 ⟨h.isNaN_eq, by rwa [hv]⟩, hv⟩

/-- A finite double is nearest to its own value. -/
theorem isNearest_value (h : x.isFinite = true) : IsNearest x (value x) :=
  ⟨isNaN_of_isFinite h, by rw [nearest_of_onGrid (onGrid_value x), clamp_of_abs_le (abs_value_lt h).le]⟩

/-- A finite result is the nearest number on the grid. -/
theorem IsNearest.value_of_isFinite (h : IsNearest z q) (hz : z.isFinite = true) : value z = nearest q := by
  refine (h.of_abs_lt ?_).2
  by_contra hq
  rcases le_abs.1 (not_lt.1 hq) with hq | hq
  · have hv := h.value_eq
    rw [clamp_of_le hq] at hv
    have := abs_value_lt hz
    rw [hv, abs_of_pos limit_pos] at this
    exact lt_irrefl _ this
  · have hv := h.value_eq
    rw [← neg_neg (nearest q), clamp_neg, clamp_of_le hq] at hv
    have := abs_value_lt hz
    rw [hv, abs_neg, abs_of_pos limit_pos] at this
    exact lt_irrefl _ this

/-- A finite double below a number is below what is delivered for it. -/
theorem IsNearest.le_value (h : IsNearest z q) (hx : x.isFinite = true) (hle : value x ≤ q) : value x ≤ value z := by
  rw [h.value_eq]
  calc value x = clamp (value x) := (clamp_of_abs_le (abs_value_lt hx).le).symm
    _ ≤ clamp (nearest q) := clamp_mono (le_nearest (onGrid_value x) hle)

/-- A finite double above a number is above what is delivered for it. -/
theorem IsNearest.value_le (h : IsNearest z q) (hx : x.isFinite = true) (hle : q ≤ value x) : value z ≤ value x := by
  rw [h.value_eq]
  calc clamp (nearest q) ≤ clamp (value x) := clamp_mono (nearest_le (onGrid_value x) hle)
    _ = value x := clamp_of_abs_le (abs_value_lt hx).le

/-- A number between two finite doubles is delivered between them. -/
theorem IsNearest.of_mem_Icc (h : IsNearest z q) (hx : x.isFinite = true) (hy : y.isFinite = true) (h1 : value x ≤ q)
    (h2 : q ≤ value y) : z.isFinite = true ∧ value z = nearest q ∧ value x ≤ value z ∧ value z ≤ value y := by
  have l1 := h.le_value hx h1
  have l2 := h.value_le hy h2
  have hz := isFinite_of_mem_Icc hx hy h.isNaN_eq l1 l2
  exact ⟨hz, h.value_of_isFinite hz, l1, l2⟩

/-- Results are ordered as the numbers that they are delivered for. -/
theorem IsNearest.value_le_value {z' : Float} {q' : ℚ} (h : IsNearest z q) (h' : IsNearest z' q') (hle : q ≤ q') :
    value z ≤ value z' := by
  rw [h.value_eq, h'.value_eq]
  exact clamp_mono (nearest_mono hle)

/-! ## Infinite operands -/

/-- A result of the model that is infinite. -/
theorem value_of_infinity {u : UnpackedFloat} {s : Sign} (hz : z = .ofModel (.pack u)) (hu : u = .infinity s) :
    z.isNaN = false ∧ value z = signed s limit := by
  have h : z.toModel.unpack = .infinity s := by
    rw [hz, hu]
    exact unpack_pack trivial
  refine ⟨?_, ?_⟩
  · change z.toModel.unpack.isNaN = false
    rw [h]
    rfl
  · rw [value, h]
    rfl

/-- What is added to infinity is lost. -/
theorem value_add_of_infinite (hx : x.isFinite = true) (hy : y.isNaN = false) (hy' : y.isFinite = false) :
    (x + y).isNaN = false ∧ value (x + y) = value y := by
  have fx : x.toModel.unpack.isFinite = true := hx
  obtain ⟨s, hv, hs⟩ := unpack_of_infinite hy hy'
  have hadd : add .binary64 x.toModel.unpack y.toModel.unpack = .infinity s := by
    cases hx : x.toModel.unpack <;> rw [hv] <;> rw [hx] at fx <;> first | rfl | cases fx
  rw [hs]
  exact value_of_infinity rfl hadd

/-- What is taken from infinity is lost. -/
theorem value_sub_of_infinite (hx : x.isNaN = false) (hx' : x.isFinite = false) (hy : y.isFinite = true) :
    (x - y).isNaN = false ∧ value (x - y) = value x := by
  have fy : y.toModel.unpack.isFinite = true := hy
  obtain ⟨s, hu, hs⟩ := unpack_of_infinite hx hx'
  have hsub : sub .binary64 x.toModel.unpack y.toModel.unpack = .infinity s := by
    cases hy : y.toModel.unpack <;> rw [hu] <;> rw [hy] at fy <;> first | rfl | cases fy
  rw [hs]
  exact value_of_infinity rfl hsub

/-- Positive factors leave infinity where it is. -/
theorem value_mul_of_infinite (hx : x.isNaN = false) (hx' : x.isFinite = false) (hy : y.isFinite = true) (h0 : 0 < value y) :
    (x * y).isNaN = false ∧ value (x * y) = value x := by
  obtain ⟨s, hu, hs⟩ := unpack_of_infinite hx hx'
  obtain ⟨m, e, hm, hv, -⟩ := unpack_of_pos hy h0
  have hmul : mul .binary64 x.toModel.unpack y.toModel.unpack = .infinity s := by
    rw [hu, hv]
    cases s <;> rfl
  rw [hs]
  exact value_of_infinity rfl hmul

/-- Positive divisors leave infinity where it is. -/
theorem value_div_of_infinite (hx : x.isNaN = false) (hx' : x.isFinite = false) (hy : y.isFinite = true) (h0 : 0 < value y) :
    (x / y).isNaN = false ∧ value (x / y) = value x := by
  obtain ⟨s, hu, hs⟩ := unpack_of_infinite hx hx'
  obtain ⟨m, e, hm, hv, -⟩ := unpack_of_pos hy h0
  have hdiv : div .binary64 x.toModel.unpack y.toModel.unpack = .infinity s := by
    rw [hu, hv]
    cases s <;> rfl
  rw [hs]
  exact value_of_infinity rfl hdiv

/-! ## Finite operands of finite sums -/

/-- A result of the model that is packed to a finite double is finite. -/
theorem isFinite_of_pack {u : UnpackedFloat} (h : (Float.ofModel (.pack u)).isFinite = true) : u.isFinite = true := by
  by_contra hu
  have hc : IsCanonical u := by
    cases u with
    | finite s m e hm => exact absurd rfl hu
    | _ => trivial
  change (Float.ofModel (.pack u)).toModel.unpack.isFinite = true at h
  rw [show (Float.ofModel (.pack u)).toModel.unpack = bounded u from unpack_pack hc] at h
  exact hu (isFinite_of_bounded h)

/-- A finite sum has finite terms. -/
theorem isFinite_of_add (h : (x + y).isFinite = true) : x.isFinite = true ∧ y.isFinite = true := by
  have h' : (add .binary64 x.toModel.unpack y.toModel.unpack).isFinite = true := isFinite_of_pack h
  change x.toModel.unpack.isFinite = true ∧ y.toModel.unpack.isFinite = true
  cases hx : x.toModel.unpack <;> cases hy : y.toModel.unpack <;> rw [hx, hy] at h' <;>
    first | exact ⟨rfl, rfl⟩ | cases h' | (simp only [add] at h'; split at h' <;> cases h')

end GlobeDrag.Binary64
