import GlobeDrag.Json.Format
import GlobeDrag.Proofs.Json.Number
import GlobeDrag.Proofs.Json.Scale

/-!
# Written doubles are read

A finite double is written as its shortest decimal, which is read digits first. Where digits and power of ten are doubles themselves the
number read is the double nearest to the decimal written, so the double written. Elsewhere it may be a neighbour.

Main statement: `readDouble_doubleText`.
-/

namespace GlobeDrag.Json

open Binary64
open Decimal (Scaled IsShortestOf shortest Interval)
open Number (gathered gatherLimit scale Ends)
open Float.Model.UnpackedFloat (Sign)

variable {negative : Bool} {text s : List Char} {n : ℕ} {p : ℤ} {x : Number} {z : Float}

/-! ## Reading a print -/

/-- A printed number is read as its scaled digits with its sign. -/
theorem readDouble_print (h : IsPrint negative text n p x) (hz : scale (gathered n) p = .ok z) (hs : Ends s) :
    Format.readDouble (Number.signChars negative ++ text ++ s) = .ok (Number.signed negative z, s) := by
  obtain ⟨c, r, hc, begins⟩ : ∃ c r, x.print = c :: r ∧ (c = '-' ∨ c.isDigit = true) := Number.exists_signChars_append h.isPlain.whole _ _
  have value : x.value = .ok (.double (Number.signed negative z)) := by
    rw [Number.value_eq h.comesTo, hz, h.negative_eq]
    rfl
  have read : Number.read (c :: (r ++ s)) = .ok (.double (Number.signed negative z), s) := by
    rw [← List.cons_append, ← hc, Number.read, Number.scan_print h.isPlain hs]
    simp only [bind, Except.bind, value]
    rfl
  have skip : skipSpace (c :: (r ++ s)) = c :: (r ++ s) := by
    rw [skipSpace, List.dropWhile_cons_of_neg (by simp [Number.isSpace_of_begins begins])]
  rw [← h.print_eq, hc, List.cons_append, Format.readDouble, skip]
  simp only
  rw [if_pos begins, read]
  rfl

/-! ## Signs and zeros -/

/-- Whether a sign is a minus. -/
def isMinus : Sign → Bool
  | .negative => true
  | .positive => false

/-- The sign of a double as it is written. -/
theorem signText_toList (s : Sign) : (Decimal.signText s).toList = Number.signChars (isMinus s) := by
  cases s <;> rfl

/-- The value of a double with a sign in front. -/
theorem value_signed (s : Sign) (z : Float) : value (Number.signed (isMinus s) z) = Binary64.signed s (value z) := by
  cases s
  · exact value_neg z
  · rfl

/-- A sign in front does not make a double infinite. -/
theorem isFinite_signed (negative : Bool) (z : Float) : (Number.signed negative z).isFinite = z.isFinite := by
  cases negative
  · rfl
  · exact isFinite_neg z

/-- Both zeros are read as they are written. -/
theorem readDouble_zero (negative : Bool) (hs : Ends s) :
    Format.readDouble (Number.signChars negative ++ ['0', '.', '0'] ++ s) = .ok (Number.signed negative 0, s) := by
  have digit : Number.IsRun ['0'] := ⟨List.cons_ne_nil _ _, fun c hc => by rw [List.mem_singleton.1 hc]; rfl⟩
  have print : IsPrint negative ['0', '.', '0'] 0 (-1) ⟨negative, ['0'], some ['0'], none⟩ := by
    refine ⟨rfl, rfl, ⟨digit, Or.inr rfl, ?_, nofun⟩, rfl, by decide, rfl, nofun, nofun⟩
    rintro ds ⟨⟩
    exact digit
  refine readDouble_print print ?_ hs
  have zero : gathered 0 / Decimal.Literal.scientific 1 (1 : ℕ) = 0 := Float.toBits_inj.1 (by decide +kernel)
  rw [scale_of_neg _ (by norm_num) (by decide)]
  exact congrArg Except.ok zero

/-! ## The shortest decimal, read -/

variable {m : ℕ} {e : ℤ} {d : Scaled}

/-- How a decimal is written does not change the number. -/
theorem written_eq (d : Scaled) : ((written d).1 : ℚ) * 10 ^ (written d).2 = d.number := by
  unfold written Scaled.number
  split
  · next h =>
    have split : (10 : ℚ) ^ d.exponent = 10 ^ (d.exponent.toNat + 1) * 10 ^ (-1 : ℤ) := by
      rw [← zpow_natCast, ← zpow_add₀ (by norm_num)]
      congr 1
      omega
    rw [split, Nat.cast_mul, Nat.cast_pow, Nat.cast_ofNat, mul_assoc]
  · rfl

/-- The exponents of the digits that are written. -/
theorem written_snd (h1 : -400 ≤ d.exponent) (h2 : d.exponent ≤ 308) : -400 ≤ (written d).2 ∧ (written d).2 ≤ 308 := by
  unfold written
  split
  · exact ⟨by norm_num, by norm_num⟩
  · exact ⟨h1, h2⟩

theorem written_fst_pos (h : 0 < d.significand) : 0 < (written d).1 := by
  unfold written
  split
  · positivity
  · exact h

/-- The three largest doubles are not read as infinity. -/
theorem isFinite_product_top :
    ∀ j : Fin 3, (product (written (shortest .even (2 ^ 53 - 1 - j) 971)).1
      (written (shortest .even (2 ^ 53 - 1 - j) 971)).2).isFinite = true := by
  decide +kernel

section

variable {s : Sign} {hm : 0 < m}

/-- The digits that are written do not overflow on the way back. -/
theorem isFinite_product_written (h : IsCanonical (.finite s m e hm)) (he : e ≤ 971)
    (limit : (written (shortest .even m e)).1 < gatherLimit) :
    (product (written (shortest .even m e)).1 (written (shortest .even m e)).2).isFinite = true := by
  obtain ⟨bits, least, -⟩ := h
  have hd := Decimal.isShortestOf_shortest .even hm bits least he
  have pos := written_fst_pos hd.significand_pos
  obtain ⟨h1, h2⟩ := written_snd hd.le_exponent hd.exponent_le
  have high := hd.isShortest.contains.le_high
  rw [Interval.high_ofDouble, ← written_eq] at high
  have base := two_zpow_pos e
  rcases lt_or_ge (written (shortest .even m e)).2 0 with hp | hp
  · exact (isNear_product_of_neg pos limit h1 hp).1
  rcases he.lt_or_eq with he | rfl
  · refine isFinite_product pos limit hp h2 (high.trans ?_)
    have top : (m : ℚ) + 1 / 2 ≤ 2 ^ 53 := by
      have : (m : ℚ) + 1 ≤ 2 ^ 53 := by exact_mod_cast bits
      linarith
    calc ((m : ℚ) + 1 / 2) * 2 ^ e ≤ 2 ^ 53 * 2 ^ (970 : ℤ) :=
          mul_le_mul top (zpow_le_zpow_right₀ (by norm_num) (by omega)) base.le (by norm_num)
      _ = 2 ^ 52 * 2 ^ (971 : ℤ) := by
          rw [show (971 : ℤ) = 970 + 1 by norm_num, zpow_add_one₀ (by norm_num)]
          ring
      _ ≤ (2 ^ 53 - 7 / 2) * 2 ^ (971 : ℤ) := mul_le_mul_of_nonneg_right (by norm_num) (two_zpow_pos _).le
  · rcases Nat.lt_or_ge m (2 ^ 53 - 3) with below | top
    · refine isFinite_product pos limit hp h2 (high.trans (mul_le_mul_of_nonneg_right ?_ base.le))
      have : (m : ℚ) + 4 ≤ 2 ^ 53 := by
        have : m + 4 ≤ 2 ^ 53 := by omega
        exact_mod_cast this
      linarith
    · obtain ⟨j, rfl⟩ : ∃ j : Fin 3, m = 2 ^ 53 - 1 - j := ⟨⟨2 ^ 53 - 1 - m, by omega⟩, by simp only; omega⟩
      exact isFinite_product_top j

/-- A number of an interval is half a spacing away from its double. -/
theorem abs_sub_le_of_contains (h : IsCanonical (.finite s m e hm)) {q : ℚ} (hq : (Interval.ofDouble m e).Contains q) :
    |q - m * 2 ^ e| ≤ roundoff * (m * 2 ^ e) + halfStep := by
  have base := two_zpow_pos e
  have low := hq.low_le
  have high := hq.le_high
  rw [Interval.low_ofDouble hm] at low
  rw [Interval.high_ofDouble] at high
  have half : |q - m * 2 ^ e| ≤ 2 ^ e / 2 := by
    have : ((m : ℚ) - 1 / 2) * 2 ^ e ≤ q := by
      refine le_trans (mul_le_mul_of_nonneg_right ?_ base.le) low
      split <;> linarith
    rw [abs_le]
    constructor <;> linarith
  refine half.trans ?_
  rcases h.2.2 with normal | rfl
  · have : (2 : ℚ) ^ 52 ≤ m := by exact_mod_cast normal
    have := mul_le_mul_of_nonneg_right this base.le
    have := halfStep_pos
    rw [roundoff]
    linarith
  · have := two_zpow_div_two
    have : 0 ≤ roundoff * (m * 2 ^ (-1074 : ℤ)) := mul_nonneg roundoff_pos.le (mul_nonneg (Nat.cast_nonneg m) base.le)
    linarith

/-- What is read of a double is close to it. -/
theorem abs_product_sub_le (h : IsCanonical (.finite s m e hm)) (he : e ≤ 971)
    (limit : (written (shortest .even m e)).1 < gatherLimit) :
    |value (product (written (shortest .even m e)).1 (written (shortest .even m e)).2) - m * 2 ^ e| ≤
      m * 2 ^ e / 2 ^ 50 + 2 ^ (-1073 : ℤ) := by
  have hd := Decimal.isShortestOf_shortest .even hm h.1 h.2.1 he
  obtain ⟨h1, h2⟩ := written_snd hd.le_exponent hd.exponent_le
  have near := isNear_product (written_fst_pos hd.significand_pos) limit h1 h2 (isFinite_product_written h he limit)
  have inside := abs_sub_le_of_contains h hd.isShortest.contains
  rw [written_eq] at near
  have four : (2 : ℚ) ^ (-1073 : ℤ) = 4 * halfStep := by
    rw [halfStep, show (-1073 : ℤ) = -1075 + 2 by norm_num, zpow_add₀ (by norm_num)]
    ring
  have hu := roundoff_pos
  have hs := halfStep_pos
  have hx : 0 ≤ (m : ℚ) * 2 ^ e := mul_nonneg (Nat.cast_nonneg m) (two_zpow_pos e).le
  rw [four]
  generalize (shortest .even m e).number = v at near inside
  generalize value (product _ _) = y at near ⊢
  generalize (m : ℚ) * 2 ^ e = q at *
  have size : v ≤ (1 + roundoff) * q + halfStep := by
    have := (abs_le.1 inside).2
    linarith
  have tiny : roundoff ≤ 1 / 100 := by norm_num [roundoff]
  have eight : q / 2 ^ 50 = 8 * (roundoff * q) := by
    rw [roundoff]
    ring
  have uq := mul_nonneg hu.le hx
  have first : |y - v| ≤ 6 * roundoff * ((1 + roundoff) * q + halfStep) + 5 / 2 * halfStep := by
    refine near.abs_sub_le.trans ?_
    gcongr
  have second : 6 * roundoff * ((1 + roundoff) * q + halfStep) ≤ 6 * (roundoff * q) + 6 / 100 * (roundoff * q) + 6 / 100 * halfStep := by
    have a := mul_le_mul_of_nonneg_right tiny uq
    have b := mul_le_mul_of_nonneg_right tiny hs.le
    linarith
  rw [eight]
  calc |y - q| = |(y - v) + (v - q)| := by rw [sub_add_sub_cancel]
    _ ≤ |y - v| + |v - q| := abs_add_le _ _
    _ ≤ 8 * (roundoff * q) + 4 * halfStep := by linarith

/-- The shortest decimal of a double nearest to a decimal number with few places has few units of these places. -/
theorem number_shortest_mul_le (h : IsCanonical (.finite s m e hm)) (he : e ≤ 971) {k places : ℕ} (hk : k ≤ 2 ^ 52)
    (h22 : places ≤ 22) (hq : nearest (k / 10 ^ places) = m * 2 ^ e) : (shortest .even m e).number * 10 ^ places ≤ 2 ^ 53 := by
  have hd := Decimal.isShortestOf_shortest .even hm h.1 h.2.1 he
  have ten : (0 : ℚ) < 10 ^ places := by positivity
  have inside := (abs_le.1 (abs_sub_le_of_contains h hd.isShortest.contains)).2
  have move := (abs_le.1 (abs_nearest_sub_le_add (k / 10 ^ places))).2
  rw [hq, abs_of_nonneg (div_nonneg (Nat.cast_nonneg k) ten.le)] at move
  have small : roundoff ≤ 1 / 100 := by norm_num [roundoff]
  have tiny : halfStep * 10 ^ places ≤ 1 / 100 := by
    calc halfStep * 10 ^ places ≤ 2 ^ (-100 : ℤ) * 10 ^ 22 :=
          mul_le_mul (zpow_le_zpow_right₀ (by norm_num) (by norm_num)) (pow_le_pow_right₀ (by norm_num) h22) ten.le
            (two_zpow_pos _).le
      _ ≤ 1 / 100 := by norm_num
  have hu := roundoff_pos
  have hs := halfStep_pos
  have number : (shortest .even m e).number ≤ (1 + roundoff) * ((1 + roundoff) * (k / 10 ^ places) + halfStep) + halfStep := by
    have : (m : ℚ) * 2 ^ e ≤ (1 + roundoff) * (k / 10 ^ places) + halfStep := by linarith
    have := mul_le_mul_of_nonneg_left this (by linarith : 0 ≤ 1 + roundoff)
    linarith
  calc (shortest .even m e).number * 10 ^ places
      ≤ ((1 + roundoff) * ((1 + roundoff) * (k / 10 ^ places) + halfStep) + halfStep) * 10 ^ places := by gcongr
    _ = (1 + roundoff) ^ 2 * k + (2 + roundoff) * (halfStep * 10 ^ places) := by
        field_simp
        ring
    _ ≤ (1 + roundoff) ^ 2 * 2 ^ 52 + (2 + roundoff) * (1 / 100) := by
        have : (k : ℚ) ≤ 2 ^ 52 := by exact_mod_cast hk
        gcongr
    _ ≤ 2 ^ 53 := by norm_num [roundoff]

/-- The search for it does not go beyond these places. -/
theorem neg_places_le_exponent (h : IsCanonical (.finite s m e hm)) (he : e ≤ 971) {k places : ℕ}
    (hq : nearest (k / 10 ^ places) = m * 2 ^ e) : -(places : ℤ) ≤ (shortest .even m e).exponent := by
  have hd := Decimal.isShortestOf_shortest .even hm h.1 h.2.1 he
  have ten : (0 : ℚ) < 10 ^ places := by positivity
  have hk0 : 0 < k := by
    rw [Nat.pos_iff_ne_zero]
    rintro rfl
    rw [Nat.cast_zero, zero_div, nearest_zero] at hq
    exact absurd hq (mantissa_mul_pos hm e).ne
  refine hd.isShortest.le_exponent (n := k) ?_
  rw [zpow_neg, zpow_natCast, ← div_eq_mul_inv]
  exact (Interval.contains_ofDouble_iff h (div_pos (by exact_mod_cast hk0) ten)).2 hq

/-- The shortest decimal of a double nearest to a short decimal number is short: digits and power of ten are doubles. -/
theorem written_le_of_nearest (h : IsCanonical (.finite s m e hm)) (he : e ≤ 971) {k places : ℕ} (hk : k ≤ 2 ^ 52)
    (h1 : 1 ≤ places) (h22 : places ≤ 22) (hq : nearest (k / 10 ^ places) = m * 2 ^ e) :
    (written (shortest .even m e)).1 ≤ 2 ^ 53 ∧ (written (shortest .even m e)).2.natAbs ≤ 22 := by
  have hd := Decimal.isShortestOf_shortest .even hm h.1 h.2.1 he
  have coarse := neg_places_le_exponent h he hq
  have scaled := number_shortest_mul_le h he hk h22 hq
  obtain ⟨j, hj⟩ : ∃ j : ℕ, (shortest .even m e).exponent + places = j :=
    ⟨((shortest .even m e).exponent + places).toNat, by omega⟩
  have whole : (shortest .even m e).significand * 10 ^ j ≤ 2 ^ 53 := by
    rw [Scaled.number, mul_assoc, ← zpow_natCast, ← zpow_add₀ (by norm_num), hj, zpow_natCast] at scaled
    exact_mod_cast scaled
  have digits : (shortest .even m e).significand ≤ 2 ^ 53 :=
    (Nat.le_mul_of_pos_right _ (by positivity)).trans whole
  unfold written
  split
  · refine ⟨(Nat.mul_le_mul_left _ (Nat.pow_le_pow_right (by decide) (by omega))).trans whole, ?_⟩
    change (-1 : ℤ).natAbs ≤ 22
    decide
  · refine ⟨digits, ?_⟩
    have : 10 ^ j ≤ 2 ^ 53 := (Nat.le_mul_of_pos_left _ hd.significand_pos).trans whole
    have : j < 23 := (Nat.pow_lt_pow_iff_right (by decide : 1 < 10)).1 (this.trans_lt (by norm_num))
    omega

/-- The double nearest to a short decimal number is read as it was written. -/
theorem value_product_of_nearest (h : IsCanonical (.finite s m e hm)) (he : e ≤ 971)
    (limit : (written (shortest .even m e)).1 < gatherLimit) {k places : ℕ} (hk : k ≤ 2 ^ 52) (h1 : 1 ≤ places) (h22 : places ≤ 22)
    (hq : nearest (k / 10 ^ places) = m * 2 ^ e) :
    value (product (written (shortest .even m e)).1 (written (shortest .even m e)).2) = m * 2 ^ e := by
  have hd := Decimal.isShortestOf_shortest .even hm h.1 h.2.1 he
  obtain ⟨digits, power⟩ := written_le_of_nearest h he hk h1 h22 hq
  have pos := (Interval.isProper_ofDouble hm e).pos_of_contains hd.isShortest.contains
  rw [(isNearest_product digits power).value_of_isFinite (isFinite_product_written h he limit), written_eq]
  exact (Interval.contains_ofDouble_iff h pos).1 hd.isShortest.contains

end

/-! ## A double, written and read -/

/-- A double that is not finite is written as null. -/
theorem doubleText_of_not_isFinite {x : Float} (h : x.isFinite = false) : doubleText x = "null" := by
  change x.toModel.unpack.isFinite = false at h
  rw [doubleText]
  cases hu : x.toModel.unpack <;> rw [hu] at h <;> first | rfl | cases h

/-- A double nearest to a decimal number with one to 22 digits behind the point and at most 52 bits in its last place. -/
def IsDecimal (x : Float) : Prop :=
  ∃ (k : ℤ) (places : ℕ), |k| ≤ 2 ^ 52 ∧ 1 ≤ places ∧ places ≤ 22 ∧ IsNearest x (k / 10 ^ places)

/-- What a finite double `x` comes back as: a double close to it, and the same one if it is that of a short decimal number. -/
structure Returns (x y : Float) : Prop where
  isFinite : y.isFinite = true
  abs_sub_le : |value y - value x| ≤ |value x| / 2 ^ 50 + 2 ^ (-1073 : ℤ)
  eq_of_isDecimal : IsDecimal x → y = x

/-- A finite double returns as itself at best. -/
theorem returns_refl {x : Float} (h : x.isFinite = true) : Returns x x := by
  refine ⟨h, ?_, fun _ => rfl⟩
  rw [sub_self, abs_zero]
  exact add_nonneg (div_nonneg (abs_nonneg _) (by norm_num)) (two_zpow_pos _).le

/-- The exponent of a finite double is bounded. -/
theorem exponent_le {x : Float} {s : Sign} {m : ℕ} {e : ℤ} {hm : 0 < m} (hx : x.isFinite = true)
    (hu : x.toModel.unpack = .finite s m e hm) (hv : value x = Binary64.signed s (m * 2 ^ e)) : e ≤ 971 := by
  have below := abs_value_lt hx
  have canonical := isCanonical_toModel x
  rw [hu] at canonical
  rcases canonical.2.2 with normal | rfl
  · by_contra he
    have : limit ≤ m * 2 ^ e := by
      have : (2 ^ 52 : ℚ) ≤ m := by exact_mod_cast normal
      calc limit = 2 ^ (52 : ℤ) * 2 ^ (972 : ℤ) := (two_zpow_mul_two_zpow (by norm_num)).symm
        _ ≤ m * 2 ^ e := mul_le_mul (by exact_mod_cast this) (zpow_le_zpow_right₀ (by norm_num) (by omega)) (two_zpow_pos _).le
            (Nat.cast_nonneg m)
    rw [hv, abs_signed, abs_of_pos (mantissa_mul_pos hm e)] at below
    linarith
  · norm_num

/-- What is read of the text of a double other than zero. -/
theorem returns_product {x : Float} {s : Sign} {m : ℕ} {e : ℤ} {hm : 0 < m} (hx : x.isFinite = true)
    (hu : x.toModel.unpack = .finite s m e hm) (hv : value x = Binary64.signed s (m * 2 ^ e))
    (limit : (written (shortest .even m e)).1 < gatherLimit) :
    Returns x (Number.signed (isMinus s) (product (written (shortest .even m e)).1 (written (shortest .even m e)).2)) := by
  have canonical := isCanonical_toModel x
  rw [hu] at canonical
  have he := exponent_le hx hu hv
  have pos := mantissa_mul_pos hm e
  have size : |value x| = m * 2 ^ e := by rw [hv, abs_signed, abs_of_pos pos]
  have finite := isFinite_product_written canonical he limit
  refine ⟨by rwa [isFinite_signed], ?_, ?_⟩
  · rw [size, value_signed, hv, ← signed_sub, abs_signed]
    exact abs_product_sub_le canonical he limit
  · rintro ⟨k, places, hk, h1, h22, near⟩
    have whole : nearest (k.natAbs / 10 ^ places) = m * 2 ^ e := by
      rw [← size, near.value_of_isFinite hx, ← nearest_abs, abs_div, Nat.cast_natAbs, Int.cast_abs,
        abs_of_pos (by positivity : (0 : ℚ) < 10 ^ places)]
    rw [Int.abs_eq_natAbs] at hk
    have same := value_product_of_nearest canonical he limit (by omega) h1 h22 whole
    refine eq_of_value_eq (isNaN_of_isFinite (by rwa [isFinite_signed])) (isNaN_of_isFinite hx) ?_ ?_
    · rw [value_signed, same, hv]
    · rw [value_signed, same, ← hv, ← abs_ne_zero, size]
      exact pos.ne'

/-- A zero is written with one digit on each side of the point. -/
theorem toList_doubleText_zero {x : Float} {s : Sign} (hu : x.toModel.unpack = .zero s) :
    (doubleText x).toList = Number.signChars (isMinus s) ++ ['0', '.', '0'] := by
  rw [doubleText, hu]
  simp only [String.toList_append, signText_toList]
  rfl

/-- A finite double is written as its sign and its shortest decimal. -/
theorem toList_doubleText_finite {x : Float} {s : Sign} {m : ℕ} {e : ℤ} {hm : 0 < m} (hu : x.toModel.unpack = .finite s m e hm) :
    (doubleText x).toList = Number.signChars (isMinus s) ++ decimalText (shortest .even m e) := by
  rw [doubleText, hu]
  simp only [String.toList_append, signText_toList, String.toList_ofList]

/-- A double that unpacks to zero is one of the two zeros. -/
theorem eq_signed_zero {x : Float} {s : Sign} (hx : x.isFinite = true) (hu : x.toModel.unpack = .zero s) (hv : value x = 0) :
    x = Number.signed (isMinus s) 0 := by
  have positive : (0 : Float).toModel.unpack = .zero .positive := rfl
  rcases eq_zero_of_value_eq_zero hx hv with rfl | rfl
  · rw [positive] at hu
    cases hu
    rfl
  · rw [toModel_neg, positive] at hu
    cases hu
    rfl

/-- A finite double comes back as a double close to it. -/
theorem readDouble_doubleText {x : Float} (hx : x.isFinite = true) :
    ∃ y, Returns x y ∧ ∀ s, Ends s → Format.readDouble ((doubleText x).toList ++ s) = .ok (y, s) := by
  rcases unpack_of_isFinite hx with ⟨sign, hu, hv⟩ | ⟨sign, m, e, hm, hu, hv⟩
  · refine ⟨x, returns_refl hx, fun s hs => ?_⟩
    rw [toList_doubleText_zero hu, readDouble_zero _ hs, ← eq_signed_zero hx hu hv]
  · have canonical := isCanonical_toModel x
    rw [hu] at canonical
    have he := exponent_le hx hu hv
    have hd := Decimal.isShortestOf_shortest .even hm canonical.1 canonical.2.1 he
    obtain ⟨number, print⟩ := exists_decimalText (isMinus sign) hd.significand_pos hd.significand_lt hd.le_exponent hd.exponent_le
    have limit := print.comesTo.lt_limit
    obtain ⟨h1, h2⟩ := written_snd hd.le_exponent hd.exponent_le
    have scaled := scale_gathered (written_fst_pos hd.significand_pos) limit h1 h2 (isFinite_product_written canonical he limit)
    refine ⟨_, returns_product hx hu hv limit, fun s hs => ?_⟩
    rw [toList_doubleText_finite hu]
    exact readDouble_print print scaled hs

end GlobeDrag.Json
