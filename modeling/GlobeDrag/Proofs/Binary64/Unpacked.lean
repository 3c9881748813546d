import GlobeDrag.Proofs.Binary64.Nearest

/-!
# Unpacked doubles

The model of doubles computes on sign, mantissa and exponent. Here such a triple is read as an exact number, and the rounding and
packing of the model are shown to be `nearest` and `clamp`.

Main statements: `isRounding_roundWithAccuracy` (a mantissa with its residual bits is rounded to the nearest number on the grid)
and `unpack_pack` (packing keeps what is in canonical form, up to infinity).
-/

namespace GlobeDrag.Binary64

open Float.Model (Format UnpackedFloat totalExponent)
open Float.Model.UnpackedFloat

/-! ## Exact numbers -/

/-- The number with a sign and a size. -/
def signed : Sign → ℚ → ℚ
  | .positive, q => q
  | .negative, q => -q

@[simp] theorem signed_positive (q : ℚ) : signed .positive q = q := rfl

@[simp] theorem signed_negative (q : ℚ) : signed .negative q = -q := rfl

@[simp] theorem signed_zero (s : Sign) : signed s 0 = 0 := by
  cases s <;> simp

theorem signed_neg (s : Sign) (q : ℚ) : signed (-s) q = -signed s q := by
  cases s
  · exact (neg_neg q).symm
  · rfl

theorem signed_sub (s : Sign) (q r : ℚ) : signed s (q - r) = signed s q - signed s r := by
  cases s
  · rw [signed_negative, signed_negative, signed_negative]
    ring
  · rfl

theorem abs_signed (s : Sign) (q : ℚ) : |signed s q| = |q| := by
  cases s <;> simp

/-- Rounding works on the sign apart. -/
theorem nearest_signed (s : Sign) (q : ℚ) : nearest (signed s q) = signed s (nearest q) := by
  cases s <;> simp [nearest_neg]

/-- So does clamping. -/
theorem clamp_signed (s : Sign) (q : ℚ) : clamp (signed s q) = signed s (clamp q) := by
  cases s <;> simp [clamp_neg]

theorem signed_apply (s : Sign) (n : ℤ) : ((s.apply n : ℤ) : ℚ) = signed s n := by
  cases s <;> simp [Sign.apply]

/-- The exact number of an unpacked double. Infinity stands at `limit`, and what is not a number at zero. -/
def rational : UnpackedFloat → ℚ
  | .infinity s => signed s limit
  | .notANumber => 0
  | .zero _ => 0
  | .finite s m e _ => signed s (m * 2 ^ e)

/-- The form in which the model keeps doubles: 53 bits, the highest of which is set unless the exponent is the smallest. -/
def IsCanonical : UnpackedFloat → Prop
  | .finite _ m e _ => m < 2 ^ 53 ∧ -1074 ≤ e ∧ (2 ^ 52 ≤ m ∨ e = -1074)
  | _ => True

/-- An unpacked double is finite, in canonical form, and the rounding of `q` to the grid. -/
structure IsRounding (u : UnpackedFloat) (q : ℚ) : Prop where
  finite : u.isFinite = true
  canonical : IsCanonical u
  rational_eq : rational u = nearest q

/-- A finite canonical double is on the grid. -/
theorem IsCanonical.onGrid {u : UnpackedFloat} (h : IsCanonical u) : OnGrid (rational u) := by
  cases u with
  | infinity s =>
    cases s
    · exact onGrid_limit.neg
    · exact onGrid_limit
  | notANumber => exact onGrid_intCast (n := 0) (by norm_num)
  | zero s => exact onGrid_intCast (n := 0) (by norm_num)
  | finite s m e hm =>
    obtain ⟨hm, he, -⟩ := h
    have hg : OnGrid (m * 2 ^ e) := ⟨m, e, by rw [Nat.abs_cast]; exact_mod_cast hm.le, he, by push_cast; rfl⟩
    cases s
    · exact hg.neg
    · exact hg

/-- A finite canonical double is its own rounding. -/
theorem IsCanonical.isRounding {u : UnpackedFloat} (h : IsCanonical u) (hf : u.isFinite = true) :
    IsRounding u (rational u) :=
  ⟨hf, h, (nearest_of_onGrid h.onGrid).symm⟩

/-- Zero is what zero is rounded to. -/
theorem isRounding_zero (s : Sign) : IsRounding (.zero s) 0 :=
  ⟨rfl, trivial, nearest_zero.symm⟩

/-! ## Residual bits -/

/-- A number that was cut to `m`, as far as the accuracy tells. -/
def Within (q : ℚ) (m : ℕ) : Accuracy → Prop
  | .exact => q = m
  | .inexact .lt => m < q ∧ q < m + 1 / 2
  | .inexact .eq => q = m + 1 / 2
  | .inexact .gt => m + 1 / 2 < q ∧ q < m + 1

/-- A mantissa is not above the number that it was cut from. -/
theorem Within.le {q : ℚ} {m : ℕ} {a : Accuracy} (h : Within q m a) : m ≤ q := by
  rcases a with _ | o
  · exact h.ge
  · cases o
    · exact h.1.le
    · exact (by linarith : (m : ℚ) ≤ m + 1 / 2).trans_eq h.symm
    · linarith [h.1]

/-- The number is less than one unit above the mantissa. -/
theorem Within.lt {q : ℚ} {m : ℕ} {a : Accuracy} (h : Within q m a) : q < m + 1 := by
  rcases a with _ | o
  · exact h.trans_lt (by linarith)
  · cases o
    · linarith [h.2]
    · exact h.trans_lt (by linarith)
    · exact h.2

/-- The residual bits suffice for rounding to a whole number. -/
theorem Within.roundToNearestEven {q : ℚ} {m : ℕ} {a : Accuracy} (h : Within q m a) :
    ((a.roundToNearestEven m : ℕ) : ℤ) = nearestWhole q := by
  rcases a with _ | o
  · rw [(h : q = m)]
    exact (nearestWhole_intCast m).symm
  · cases o
    · exact (nearestWhole_of_lt_half (n := m) h.1.le h.2).symm
    · rw [nearestWhole_of_half (n := m) h]
      simp only [Accuracy.roundToNearestEven, Int.even_coe_nat]
      split
      · next he => rw [Nat.even_iff.1 he, add_zero]
      · next he => rw [Nat.not_even_iff.1 he, Nat.cast_succ]
    · exact (nearestWhole_of_half_lt (n := m) h.1 h.2).symm

/-- Halving a number that was cut to a mantissa shifts the mantissa and its residual bits. -/
theorem Within.shiftRightOne {q : ℚ} {em : ExtendedMantissa} (h : Within q em.mantissa em.accuracy) :
    Within (q / 2) em.shiftRightOne.mantissa em.shiftRightOne.accuracy := by
  obtain ⟨m, r, t⟩ := em
  have hm : (m : ℚ) = 2 * (m / 2 : ℕ) + (m % 2 : ℕ) := by exact_mod_cast (Nat.div_add_mod m 2).symm
  rcases Nat.mod_two_eq_zero_or_one m with h2 | h2 <;> rw [h2] at hm <;> cases r <;> cases t <;>
    simp only [ExtendedMantissa.accuracy, ExtendedMantissa.shiftRightOne, Within, h2, Bool.or_false, Bool.or_true, Bool.or_self,
      bne_self_eq_false, Nat.cast_zero, Nat.cast_one, (by decide : (1 != 0) = true), add_zero] at h hm ⊢ <;>
    first | linarith | exact ⟨by linarith, by linarith⟩

/-- Cutting off more bits keeps track of what was cut. -/
theorem Within.shiftRight {q : ℚ} {em : ExtendedMantissa} (h : Within q em.mantissa em.accuracy) (n : ℕ) :
    Within (q / 2 ^ n) (em >>> n).mantissa (em >>> n).accuracy := by
  change Within (q / 2 ^ n) (n.repeat ExtendedMantissa.shiftRightOne em).mantissa
    (n.repeat ExtendedMantissa.shiftRightOne em).accuracy
  induction n with
  | zero => simpa [Nat.repeat] using h
  | succ n ih =>
    rw [pow_succ, ← div_div]
    exact ih.shiftRightOne

/-- A mantissa with the bits behind it, as the model keeps them. -/
theorem within_ofMantissaAndAccuracy {q : ℚ} {m : ℕ} {a : Accuracy} (h : Within q m a) :
    Within q (ExtendedMantissa.ofMantissaAndAccuracy m a).mantissa
      (ExtendedMantissa.ofMantissaAndAccuracy m a).accuracy := by
  rcases a with _ | o
  · exact h
  · cases o <;> exact h

/-! ## Rounding -/

/-- The exponent that the model aims at. -/
theorem targetExponent_eq (m : ℕ) (e : ℤ) :
    Format.binary64.targetExponent (totalExponent m e) = max (m.log2 + e - 52) (-1074) := by
  simp only [Format.targetExponent, totalExponent, Format.mantissaBits, Format.minExponent]
  norm_num
  omega

/-- Cutting to a larger exponent. -/
theorem shiftToExponent_spec {q : ℚ} {m : ℕ} {e t : ℤ} {a : Accuracy} (h : Within (q / 2 ^ e) m a) (ht : e ≤ t) :
    (shiftToExponent m e a t).2 = t ∧
      Within (q / 2 ^ t) (shiftToExponent m e a t).1.mantissa (shiftToExponent m e a t).1.accuracy := by
  have hn : e + ((t - e).toNat : ℤ) = t := by omega
  refine ⟨hn, ?_⟩
  have hp : q / 2 ^ t = q / 2 ^ e / 2 ^ (t - e).toNat := by
    rw [div_div, ← zpow_natCast, ← zpow_add₀ (by norm_num), hn]
  rw [hp]
  exact (within_ofMantissaAndAccuracy h).shiftRight _

/-- A mantissa that is not zero has the exponent of the spacing as its target. -/
theorem targetExponent_eq_grain {q : ℚ} {m : ℕ} {e : ℤ} {a : Accuracy} (hm : 0 < m) (h : Within (q / 2 ^ e) m a) :
    Format.binary64.targetExponent (totalExponent m e) = grain q := by
  have hp := two_zpow_pos e
  have hle : m * 2 ^ e ≤ q := (le_div_iff₀ hp).1 h.le
  have hlt : q < (m + 1) * 2 ^ e := (div_lt_iff₀ hp).1 h.lt
  have hq : 0 < q := (mul_pos (by exact_mod_cast hm) hp).trans_le hle
  have h1 : (2 : ℚ) ^ m.log2 ≤ m := by exact_mod_cast Nat.log2_self_le hm.ne'
  have h2 : (m : ℚ) + 1 ≤ 2 ^ (m.log2 + 1) := by exact_mod_cast Nat.lt_log2_self (n := m)
  have hlo : (m.log2 : ℤ) + e ≤ Int.log 2 q := by
    refine (Int.zpow_le_iff_le_log (b := 2) (by decide) hq).1 ?_
    rw [Nat.cast_ofNat, zpow_add₀ (by norm_num), zpow_natCast]
    exact (mul_le_mul_of_nonneg_right h1 hp.le).trans hle
  have hhi : Int.log 2 q < m.log2 + 1 + e := by
    refine (Int.lt_zpow_iff_log_lt (b := 2) (by decide) hq).1 ?_
    rw [Nat.cast_ofNat, zpow_add₀ (by norm_num), ← Nat.cast_succ, zpow_natCast]
    exact hlt.trans_le (mul_le_mul_of_nonneg_right h2 hp.le)
  rw [targetExponent_eq, grain, abs_of_pos hq]
  omega

/-- Without a bit above the exponent, both the target and the spacing are the smallest. -/
theorem targetExponent_zero_eq_grain {q : ℚ} {e : ℤ} {a : Accuracy} (hq : 0 < q) (h : Within (q / 2 ^ e) 0 a)
    (he : e ≤ grain q) : Format.binary64.targetExponent (totalExponent 0 e) = grain q := by
  have hlt : q < 2 ^ e := by simpa using (div_lt_iff₀ (two_zpow_pos e)).1 h.lt
  have hlog : Int.log 2 q < e := (Int.lt_zpow_iff_log_lt (b := 2) (by decide) hq).1 (by simpa using hlt)
  rw [targetExponent_eq, Nat.log2_zero]
  rw [grain, abs_of_pos hq] at he ⊢
  omega

/-- Cutting to the target exponent is cutting to the spacing. -/
theorem shiftToTargetExponent_spec {q : ℚ} {m : ℕ} {e : ℤ} {a : Accuracy} (hq : 0 < q) (h : Within (q / 2 ^ e) m a)
    (he : e ≤ grain q) :
    (shiftToTargetExponent .binary64 m e a).2 = grain q ∧
      Within (q / 2 ^ grain q) (shiftToTargetExponent .binary64 m e a).1.mantissa
        (shiftToTargetExponent .binary64 m e a).1.accuracy := by
  have ht : Format.binary64.targetExponent (totalExponent m e) = grain q := by
    rcases Nat.eq_zero_or_pos m with rfl | hm
    · exact targetExponent_zero_eq_grain hq h he
    · exact targetExponent_eq_grain hm h
  rw [shiftToTargetExponent, ht]
  exact shiftToExponent_spec h he

/-- Rounding does not lead to a finer spacing. -/
theorem grain_le_grain_nearest {q : ℚ} (hq : 0 < q) : grain q ≤ grain (nearest q) := by
  by_cases hg : grain q = -1074
  · rw [hg]
    exact le_grain _
  · refine le_grain_of_le ?_
    rw [abs_of_nonneg (nearest_nonneg hq.le), nearest, zpow_add₀ (by norm_num), mul_comm]
    gcongr
    exact_mod_cast le_nearestWhole_grain hq hg

/-- A positive number on the grid, cut to the spacing about it, has a canonical mantissa. -/
theorem mantissa_of_onGrid {q : ℚ} {m : ℕ} {a : Accuracy} (hq : 0 < q) (hg : OnGrid q) (h : Within (q / 2 ^ grain q) m a) :
    (m : ℚ) * 2 ^ grain q = q ∧ m < 2 ^ 53 ∧ (2 ^ 52 ≤ m ∨ grain q = -1074) := by
  have hp := two_zpow_pos (grain q)
  obtain ⟨n, hn⟩ := hg.exists_mul_grain
  have hqn : q / 2 ^ grain q = n := (div_eq_iff hp.ne').2 hn
  rw [hqn] at h
  have hmn : (m : ℤ) = n := by
    have h1 : (m : ℤ) ≤ n := by exact_mod_cast h.le
    have h2 : n < (m : ℤ) + 1 := by exact_mod_cast h.lt
    omega
  rw [← hmn, Int.cast_natCast] at hqn
  refine ⟨((div_eq_iff hp.ne').1 hqn).symm, ?_, ?_⟩
  · have hlt := abs_div_grain_lt q
    rw [hqn, Nat.abs_cast] at hlt
    exact_mod_cast hlt
  · by_cases hs : grain q = -1074
    · exact Or.inr hs
    · have hle := le_abs_div_grain hq.ne' hs
      rw [hqn, Nat.abs_cast] at hle
      exact Or.inl (by exact_mod_cast hle)

/-- Nothing is cut from zero. -/
theorem within_shiftToTargetExponent_zero (e : ℤ) :
    Within 0 (shiftToTargetExponent .binary64 0 e .exact).1.mantissa
      (shiftToTargetExponent .binary64 0 e .exact).1.accuracy := by
  have h := (within_ofMantissaAndAccuracy (show Within 0 0 .exact from Nat.cast_zero.symm)).shiftRight
    (Format.binary64.targetExponent (totalExponent 0 e) - e).toNat
  rwa [zero_div] at h

/-- Shifting the mantissa zero leaves zero. -/
theorem mantissa_shiftToTargetExponent_zero (e : ℤ) :
    (shiftToTargetExponent .binary64 0 e .exact).1.mantissa = 0 := by
  exact_mod_cast le_antisymm (within_shiftToTargetExponent_zero e).le (Nat.cast_nonneg _)

/-- The model rounds zero to zero. -/
theorem roundWithAccuracy_zero (s : Sign) (e : ℤ) : roundWithAccuracy .binary64 s 0 e .exact = .zero s := by
  have hr : (shiftToTargetExponent .binary64 0 e .exact).1.roundedMantissa = 0 := by
    have h := (within_shiftToTargetExponent_zero e).roundToNearestEven
    rw [← Int.cast_zero, nearestWhole_intCast] at h
    exact_mod_cast h
  simp only [roundWithAccuracy, hr, mantissa_shiftToTargetExponent_zero, dif_pos]

/-- The model rounds a mantissa with its residual bits to the nearest number on the grid. -/
theorem isRounding_roundWithAccuracy {q : ℚ} {m : ℕ} {e : ℤ} {a : Accuracy} (hq : 0 < q) (h : Within (q / 2 ^ e) m a)
    (he : e ≤ grain q) (s : Sign) : IsRounding (roundWithAccuracy .binary64 s m e a) (signed s q) := by
  obtain ⟨h1, h2⟩ := shiftToTargetExponent_spec hq h he
  simp only [roundWithAccuracy, h1]
  generalize (shiftToTargetExponent .binary64 m e a).1 = em at h2
  have hr : nearest q = em.roundedMantissa * 2 ^ grain q := by
    rw [nearest, ← h2.roundToNearestEven, Int.cast_natCast]
    rfl
  rcases (nearest_nonneg hq.le).eq_or_lt with h0 | h0
  · have vanishes : em.roundedMantissa = 0 := by
      rw [hr, zero_eq_mul, or_iff_left (two_zpow_pos _).ne'] at h0
      exact_mod_cast h0
    rw [vanishes, dif_pos (mantissa_shiftToTargetExponent_zero _)]
    exact ⟨rfl, trivial, by rw [nearest_signed, ← h0, signed_zero]; rfl⟩
  · have stays : Within (nearest q / 2 ^ grain q) em.roundedMantissa .exact := (div_eq_iff (two_zpow_pos _).ne').2 hr
    obtain ⟨h3, h4⟩ := shiftToTargetExponent_spec h0 stays (grain_le_grain_nearest hq)
    obtain ⟨hv, hlt, hle⟩ := mantissa_of_onGrid h0 (nearest_onGrid q) h4
    have hm : (shiftToTargetExponent .binary64 em.roundedMantissa (grain q) .exact).1.mantissa ≠ 0 := by
      intro hm
      rw [hm, Nat.cast_zero, zero_mul] at hv
      exact h0.ne hv
    rw [dif_neg hm]
    refine ⟨rfl, ⟨hlt, ?_, ?_⟩, ?_⟩
    · rw [h3]
      exact le_grain _
    · rwa [h3]
    · rw [rational, h3, hv, nearest_signed]

/-- The model rounds a mantissa at any exponent to the nearest number on the grid. -/
theorem isRounding_round (s : Sign) (m : ℕ) (e : ℤ) : IsRounding (UnpackedFloat.round .binary64 s m e) (signed s (m * 2 ^ e)) := by
  rcases Nat.eq_zero_or_pos m with rfl | hm
  · have h : UnpackedFloat.round .binary64 s 0 e = .zero s := by
      simp only [UnpackedFloat.round, decreaseExponent, Nat.zero_shiftLeft, roundWithAccuracy_zero]
    rw [h, Nat.cast_zero, zero_mul, signed_zero]
    exact isRounding_zero s
  · have hp := two_zpow_pos e
    have hq : (0 : ℚ) < m * 2 ^ e := mul_pos (by exact_mod_cast hm) hp
    have hw : Within (m * 2 ^ e / 2 ^ e) m .exact := mul_div_cancel_right₀ _ hp.ne'
    simp only [UnpackedFloat.round, decreaseExponent, targetExponent_eq_grain hm hw]
    refine isRounding_roundWithAccuracy hq ?_ (by omega) s
    change (m * 2 ^ e / 2 ^ (e - ((e - grain (m * 2 ^ e)).toNat : ℤ)) : ℚ) = (m <<< (e - grain (m * 2 ^ e)).toNat : ℕ)
    rw [Nat.shiftLeft_eq, zpow_sub₀ (by norm_num), zpow_natCast]
    push_cast
    field_simp

/-- The model rounds a mantissa with a sign of its own likewise. -/
theorem isRounding_normalize (n e : ℤ) (s : Sign) : IsRounding (UnpackedFloat.normalize .binary64 n e s) (n * 2 ^ e) := by
  unfold UnpackedFloat.normalize
  split
  · next h =>
    have hn : n < 0 := compare_lt_iff_lt.1 h
    have hr := isRounding_round .negative (-n).toNat e
    have hc : (((-n).toNat : ℕ) : ℚ) = -n := by
      exact_mod_cast congrArg (Int.cast (R := ℚ)) (Int.toNat_of_nonneg (by omega : 0 ≤ -n))
    rwa [hc, signed_negative, neg_mul, neg_neg] at hr
  · next h =>
    have hn : n = 0 := compare_eq_iff_eq.1 h
    rw [hn, Int.cast_zero, zero_mul]
    exact isRounding_zero s
  · next h =>
    have hn : 0 < n := compare_gt_iff_gt.1 h
    have hr := isRounding_round .positive n.toNat e
    have hc : ((n.toNat : ℕ) : ℚ) = n := by
      exact_mod_cast congrArg (Int.cast (R := ℚ)) (Int.toNat_of_nonneg hn.le)
    rwa [hc, signed_positive] at hr

end GlobeDrag.Binary64
