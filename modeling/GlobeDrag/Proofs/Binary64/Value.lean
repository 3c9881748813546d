import GlobeDrag.Proofs.Binary64.Packing

/-!
# The exact value of a double

`value` is the rational number that a double stands for; infinity stands at `limit` and NaN at zero, so that comparisons of doubles
are comparisons of rationals and a double is finite when it is a number below `limit` in size.

Main statements: `lt_iff_value_lt`, `le_iff_value_le` and `beq_iff_value_eq` (comparisons), `isFinite_iff` (finiteness), and
`value_eq_size` (the value by the bits).
-/

namespace GlobeDrag.Binary64

open Float.Model (Format UnpackedFloat)
open Float.Model.UnpackedFloat (Sign)

/-! ## Order of unpacked doubles -/

/-- Canonical doubles with a larger exponent are larger. -/
theorem mantissa_mul_lt {s s' : Sign} {m m' : ℕ} {e e' : ℤ} {hm : 0 < m} {hm' : 0 < m'}
    (h : IsCanonical (.finite s m e hm)) (h' : IsCanonical (.finite s' m' e' hm')) (he : e < e') :
    (m : ℚ) * 2 ^ e < m' * 2 ^ e' := by
  obtain ⟨hlt, hle, -⟩ := h
  have h52 : 2 ^ 52 ≤ m' := h'.2.2.resolve_right (by omega)
  have hlt' : (m : ℚ) < 2 * 2 ^ 52 := by exact_mod_cast hlt
  have h52' : (2 : ℚ) ^ 52 ≤ m' := by exact_mod_cast h52
  calc (m : ℚ) * 2 ^ e < 2 * 2 ^ 52 * 2 ^ e := mul_lt_mul_of_pos_right hlt' (two_zpow_pos e)
    _ = 2 ^ 52 * 2 ^ (e + 1) := by rw [zpow_add_one₀ (by norm_num)]; ring
    _ ≤ m' * 2 ^ e' :=
      mul_le_mul h52' (zpow_le_zpow_right₀ (by norm_num) (by omega)) (two_zpow_pos _).le (Nat.cast_nonneg _)

theorem cmp_lt {q r : ℚ} (h : q < r) : some .lt = some (cmp q r) := congrArg some ((cmp_eq_lt_iff q r).2 h).symm

theorem cmp_same (q : ℚ) : some .eq = some (cmp q q) := congrArg some (cmp_self_eq_eq q).symm

theorem cmp_gt {q r : ℚ} (h : r < q) : some .gt = some (cmp q r) := congrArg some ((cmp_eq_gt_iff q r).2 h).symm

/-- Exponents first, then mantissas: the order of canonical doubles. -/
theorem compare_mantissa {s s' : Sign} {m m' : ℕ} {e e' : ℤ} {hm : 0 < m} {hm' : 0 < m'}
    (h : IsCanonical (.finite s m e hm)) (h' : IsCanonical (.finite s' m' e' hm')) :
    some ((compare e e').then (compare m m')) = some (cmp ((m : ℚ) * 2 ^ e) (m' * 2 ^ e')) := by
  rcases lt_trichotomy e e' with he | rfl | he
  · rw [compare_lt_iff_lt.2 he]
    exact cmp_lt (mantissa_mul_lt h h' he)
  · rw [compare_eq_iff_eq.2 rfl, cmp_mul_pos_right (two_zpow_pos e)]
    rcases lt_trichotomy m m' with hmm | rfl | hmm
    · rw [compare_lt_iff_lt.2 hmm]
      exact cmp_lt (by exact_mod_cast hmm)
    · rw [compare_eq_iff_eq.2 rfl]
      exact cmp_same _
    · rw [compare_gt_iff_gt.2 hmm]
      exact cmp_gt (by exact_mod_cast hmm)
  · rw [compare_gt_iff_gt.2 he]
    exact cmp_gt (mantissa_mul_lt h' h he)

theorem cmp_neg (q r : ℚ) : cmp (-q) (-r) = cmp r q := by
  rw [← neg_one_mul q, ← neg_one_mul r, cmp_mul_neg_left (by norm_num)]

theorem mantissa_mul_pos {m : ℕ} (hm : 0 < m) (e : ℤ) : (0 : ℚ) < m * 2 ^ e :=
  mul_pos (by exact_mod_cast hm) (two_zpow_pos e)

/-- A finite packed double is below infinity. -/
theorem abs_rational_lt_limit {u : UnpackedFloat} (h : IsCanonical u) (hb : bounded u = u) (hf : u.isFinite = true) :
    |rational u| < limit := by
  cases u with
  | notANumber => cases hf
  | infinity s => cases hf
  | zero s =>
    change |(0 : ℚ)| < limit
    rw [abs_zero]
    exact limit_pos
  | finite s m e hm =>
    have he : e ≤ 971 := by
      by_contra he
      rw [bounded, if_neg he] at hb
      cases hb
    have hm53 : (m : ℚ) < 2 ^ (53 : ℤ) := by exact_mod_cast h.1
    rw [rational, abs_signed, abs_of_pos (mantissa_mul_pos hm e)]
    calc (m : ℚ) * 2 ^ e ≤ m * 2 ^ (971 : ℤ) :=
          mul_le_mul_of_nonneg_left (zpow_le_zpow_right₀ (by norm_num) he) (Nat.cast_nonneg _)
      _ < 2 ^ (53 : ℤ) * 2 ^ (971 : ℤ) := mul_lt_mul_of_pos_right hm53 (two_zpow_pos _)
      _ = limit := two_zpow_mul_two_zpow (by norm_num)

/-- Packed doubles that are numbers compare as their exact numbers do. -/
theorem compare_eq_cmp {u v : UnpackedFloat} (hu : IsCanonical u) (hv : IsCanonical v) (hu' : bounded u = u)
    (hv' : bounded v = v) (nu : u.isNaN = false) (nv : v.isNaN = false) :
    u.compare v = some (cmp (rational u) (rational v)) := by
  have hl := limit_pos
  cases u with
  | notANumber => cases nu
  | zero s =>
    cases v with
    | notANumber => cases nv
    | zero s' => exact cmp_same 0
    | infinity s' =>
      cases s'
      · exact cmp_gt (neg_lt_zero.2 hl)
      · exact cmp_lt hl
    | finite s' m e hm =>
      have hp := mantissa_mul_pos hm e
      cases s'
      · exact cmp_gt (neg_lt_zero.2 hp)
      · exact cmp_lt hp
  | infinity s =>
    cases v with
    | notANumber => cases nv
    | zero s' =>
      cases s
      · exact cmp_lt (neg_lt_zero.2 hl)
      · exact cmp_gt hl
    | infinity s' =>
      cases s <;> cases s'
      · exact cmp_same _
      · exact cmp_lt (neg_lt_self hl)
      · exact cmp_gt (neg_lt_self hl)
      · exact cmp_same _
    | finite s' m e hm =>
      have hv' := abs_lt.1 (abs_rational_lt_limit hv hv' (by rfl))
      cases s
      · exact cmp_lt hv'.1
      · exact cmp_gt hv'.2
  | finite s m e hm =>
    have hp := mantissa_mul_pos hm e
    cases v with
    | notANumber => cases nv
    | zero s' =>
      cases s
      · exact cmp_lt (neg_lt_zero.2 hp)
      · exact cmp_gt hp
    | infinity s' =>
      have hu' := abs_lt.1 (abs_rational_lt_limit hu hu' (by rfl))
      cases s'
      · have hc : UnpackedFloat.compare (.finite s m e hm) (.infinity .negative) = some .gt := by cases s <;> rfl
        exact hc.trans (cmp_gt hu'.1)
      · have hc : UnpackedFloat.compare (.finite s m e hm) (.infinity .positive) = some .lt := by cases s <;> rfl
        exact hc.trans (cmp_lt hu'.2)
    | finite s' m' e' hm' =>
      have hp' := mantissa_mul_pos hm' e'
      cases s <;> cases s'
      · have hc := congrArg (Option.map Ordering.swap) (compare_mantissa hu hv)
        rwa [Option.map_some, Option.map_some, cmp_swap, ← cmp_neg] at hc
      · exact cmp_lt ((neg_lt_zero.2 hp).trans hp')
      · exact cmp_gt ((neg_lt_zero.2 hp').trans hp)
      · exact compare_mantissa hu hv

/-! ## Values -/

/-- The exact number that a double stands for; infinity stands at `limit` and NaN at zero. -/
def value (x : Float) : ℚ := rational x.toModel.unpack

/-- What a double unpacks to is canonical. -/
theorem isCanonical_toModel (x : Float) : IsCanonical x.toModel.unpack := (isCanonical_unpack _).1

theorem bounded_toModel (x : Float) : bounded x.toModel.unpack = x.toModel.unpack := (isCanonical_unpack _).2

/-- The doubles are on the grid. -/
theorem onGrid_value (x : Float) : OnGrid (value x) := (isCanonical_toModel x).onGrid

/-- A finite double is a number. -/
theorem isNaN_of_isFinite {x : Float} (h : x.isFinite = true) : x.isNaN = false := by
  change x.toModel.unpack.isFinite = true at h
  change x.toModel.unpack.isNaN = false
  cases hu : x.toModel.unpack <;> rw [hu] at h <;> first | rfl | cases h

/-- It is not infinite. -/
theorem isInf_of_isFinite {x : Float} (h : x.isFinite = true) : x.isInf = false := by
  change x.toModel.unpack.isFinite = true at h
  change x.toModel.unpack.isInf = false
  cases hu : x.toModel.unpack <;> rw [hu] at h <;> first | rfl | cases h

/-- Its value is below the limit. -/
theorem abs_value_lt {x : Float} (h : x.isFinite = true) : |value x| < limit :=
  abs_rational_lt_limit (isCanonical_toModel x) (bounded_toModel x) h

/-- A double is finite when it is a number below infinity. -/
theorem isFinite_iff {x : Float} : x.isFinite = true ↔ x.isNaN = false ∧ |value x| < limit := by
  refine ⟨fun h => ⟨isNaN_of_isFinite h, abs_value_lt h⟩, ?_⟩
  rintro ⟨hn, hl⟩
  change x.toModel.unpack.isNaN = false at hn
  change x.toModel.unpack.isFinite = true
  unfold value at hl
  cases hu : x.toModel.unpack with
  | notANumber =>
    rw [hu] at hn
    cases hn
  | infinity s =>
    rw [hu, rational, abs_signed, abs_of_pos limit_pos] at hl
    exact absurd hl (lt_irrefl _)
  | zero s => rfl
  | finite s m e hm => rfl

/-- A number between two finite doubles is finite. -/
theorem isFinite_of_mem_Icc {x y z : Float} (hx : x.isFinite = true) (hy : y.isFinite = true) (hz : z.isNaN = false)
    (h1 : value x ≤ value z) (h2 : value z ≤ value y) : z.isFinite = true := by
  obtain ⟨lx, -⟩ := abs_lt.1 (abs_value_lt hx)
  obtain ⟨-, ly⟩ := abs_lt.1 (abs_value_lt hy)
  exact isFinite_iff.2 ⟨hz, abs_lt.2 ⟨lx.trans_le h1, h2.trans_lt ly⟩⟩

/-- A number that is not finite is infinite. -/
theorem unpack_of_infinite {x : Float} (hx : x.isNaN = false) (hx' : x.isFinite = false) :
    ∃ s, x.toModel.unpack = .infinity s ∧ value x = signed s limit := by
  have nx : x.toModel.unpack.isNaN = false := hx
  have fx : x.toModel.unpack.isFinite = false := hx'
  cases hu : x.toModel.unpack with
  | infinity s => exact ⟨s, rfl, by rw [value, hu, rational]⟩
  | notANumber =>
    rw [hu] at nx
    cases nx
  | zero s =>
    rw [hu] at fx
    cases fx
  | finite s m e hm =>
    rw [hu] at fx
    cases fx

/-- A finite double is zero or has a mantissa and an exponent. -/
theorem unpack_of_isFinite {x : Float} (h : x.isFinite = true) :
    (∃ s, x.toModel.unpack = .zero s ∧ value x = 0) ∨
      ∃ s m e hm, x.toModel.unpack = .finite s m e hm ∧ value x = signed s (m * 2 ^ e) := by
  have fx : x.toModel.unpack.isFinite = true := h
  cases hu : x.toModel.unpack with
  | infinity s =>
    rw [hu] at fx
    cases fx
  | notANumber =>
    rw [hu] at fx
    cases fx
  | zero s => exact Or.inl ⟨s, rfl, by rw [value, hu, rational]⟩
  | finite s m e hm => exact Or.inr ⟨s, m, e, hm, rfl, by rw [value, hu, rational]⟩

/-- A positive finite double has a positive sign. -/
theorem unpack_of_pos {x : Float} (h : x.isFinite = true) (h0 : 0 < value x) :
    ∃ m e hm, x.toModel.unpack = .finite .positive m e hm ∧ value x = m * 2 ^ e := by
  rcases unpack_of_isFinite h with ⟨s, -, hv⟩ | ⟨s, m, e, hm, hu, hv⟩
  · exact absurd hv h0.ne'
  · cases s with
    | positive => exact ⟨m, e, hm, hu, hv⟩
    | negative =>
      rw [hv, signed_negative] at h0
      exact absurd h0 (neg_neg_of_pos (mantissa_mul_pos hm e)).asymm

theorem isFinite_zero : (0 : Float).isFinite = true := by decide

@[simp] theorem value_zero : value 0 = 0 := by decide +kernel

theorem isFinite_one : (1 : Float).isFinite = true := by decide

@[simp] theorem value_one : value 1 = 1 := by decide +kernel

/-! ## Comparisons -/

/-- Doubles that are numbers compare as their values do. -/
theorem compare_value {x y : Float} (hx : x.isNaN = false) (hy : y.isNaN = false) :
    x.toModel.unpack.compare y.toModel.unpack = some (cmp (value x) (value y)) :=
  compare_eq_cmp (isCanonical_toModel x) (isCanonical_toModel y) (bounded_toModel x) (bounded_toModel y) hx hy

/-- So one is below the other exactly if its value is. -/
theorem lt_iff_value_lt {x y : Float} (hx : x.isNaN = false) (hy : y.isNaN = false) :
    x < y ↔ value x < value y := by
  change decide ((x.toModel.unpack.compare y.toModel.unpack == some .lt) = true) = true ↔ _
  rw [compare_value hx hy, decide_eq_true_iff, beq_iff_eq, Option.some.injEq, cmp_eq_lt_iff]

/-- It is not above the other exactly if its value is not. -/
theorem le_iff_value_le {x y : Float} (hx : x.isNaN = false) (hy : y.isNaN = false) :
    x ≤ y ↔ value x ≤ value y := by
  change decide ((x.toModel.unpack.compare y.toModel.unpack).any (·.isLE) = true) = true ↔ _
  rw [compare_value hx hy, decide_eq_true_iff, Option.any_some, Ordering.isLE_iff_ne_gt, cmp_eq_gt_iff, not_lt]

/-- They count as equal exactly if their values are. -/
theorem beq_iff_value_eq {x y : Float} (hx : x.isNaN = false) (hy : y.isNaN = false) :
    (x == y) = true ↔ value x = value y := by
  change (x.toModel.unpack.compare y.toModel.unpack == some .eq) = true ↔ _
  rw [compare_value hx hy, beq_iff_eq, Option.some.injEq, cmp_eq_eq_iff]

/-- What compares as below another double is a number. -/
theorem isNaN_of_lt {x y : Float} (h : x < y) : x.isNaN = false ∧ y.isNaN = false := by
  change decide ((x.toModel.unpack.compare y.toModel.unpack == some .lt) = true) = true at h
  change x.toModel.unpack.isNaN = false ∧ y.toModel.unpack.isNaN = false
  cases hx : x.toModel.unpack <;> cases hy : y.toModel.unpack <;> rw [hx, hy] at h <;>
    first | exact ⟨rfl, rfl⟩ | cases h

/-- Only numbers are in order. -/
theorem isNaN_of_le {x y : Float} (h : x ≤ y) : x.isNaN = false ∧ y.isNaN = false := by
  change decide ((x.toModel.unpack.compare y.toModel.unpack).any (·.isLE) = true) = true at h
  change x.toModel.unpack.isNaN = false ∧ y.toModel.unpack.isNaN = false
  cases hx : x.toModel.unpack <;> cases hy : y.toModel.unpack <;> rw [hx, hy] at h <;>
    first | exact ⟨rfl, rfl⟩ | cases h

/-- Doubles in order have their values in order. -/
theorem value_le_of_le {x y : Float} (h : x ≤ y) : value x ≤ value y :=
  (le_iff_value_le (isNaN_of_le h).1 (isNaN_of_le h).2).1 h

/-- The order of doubles is transitive. -/
theorem le_of_le_of_le {x y z : Float} (h : x ≤ y) (h' : y ≤ z) : x ≤ z :=
  (le_iff_value_le (isNaN_of_le h).1 (isNaN_of_le h').2).2 ((value_le_of_le h).trans (value_le_of_le h'))

theorem le_of_lt_double {x y : Float} (h : x < y) : x ≤ y := by
  obtain ⟨hx, hy⟩ := isNaN_of_lt h
  exact (le_iff_value_le hx hy).2 ((lt_iff_value_lt hx hy).1 h).le

theorem lt_of_lt_of_le_double {x y z : Float} (h : x < y) (h' : y ≤ z) : x < z := by
  obtain ⟨hx, hy⟩ := isNaN_of_lt h
  exact (lt_iff_value_lt hx (isNaN_of_le h').2).2 (((lt_iff_value_lt hx hy).1 h).trans_le (value_le_of_le h'))

/-- Numbers can be compared. -/
theorem lt_of_not_le_double {x y : Float} (hx : x.isNaN = false) (hy : y.isNaN = false) (h : ¬x ≤ y) : y < x := by
  rw [le_iff_value_le hx hy, not_le] at h
  exact (lt_iff_value_lt hy hx).2 h

/-- A double between finite ones is finite. -/
theorem isFinite_of_le_of_le {x y z : Float} (hx : x.isFinite = true) (hy : y.isFinite = true) (h1 : x ≤ z) (h2 : z ≤ y) :
    z.isFinite = true :=
  isFinite_of_mem_Icc hx hy (isNaN_of_le h2).1 (value_le_of_le h1) (value_le_of_le h2)

/-- Only numbers count as equal. -/
theorem isNaN_of_beq {x y : Float} (h : (x == y) = true) : x.isNaN = false ∧ y.isNaN = false := by
  change (x.toModel.unpack.compare y.toModel.unpack == some .eq) = true at h
  change x.toModel.unpack.isNaN = false ∧ y.toModel.unpack.isNaN = false
  cases hx : x.toModel.unpack <;> cases hy : y.toModel.unpack <;> rw [hx, hy] at h <;>
    first | exact ⟨rfl, rfl⟩ | cases h

/-- The comparisons of any doubles: those of numbers are comparisons of values, all others fail. -/
theorem lt_iff_number {x y : Float} : x < y ↔ x.isNaN = false ∧ y.isNaN = false ∧ value x < value y := by
  constructor
  · intro h
    obtain ⟨hx, hy⟩ := isNaN_of_lt h
    exact ⟨hx, hy, (lt_iff_value_lt hx hy).1 h⟩
  · rintro ⟨hx, hy, h⟩
    exact (lt_iff_value_lt hx hy).2 h

/-- Doubles are in order exactly if both are numbers with their values in order. -/
theorem le_iff_number {x y : Float} : x ≤ y ↔ x.isNaN = false ∧ y.isNaN = false ∧ value x ≤ value y := by
  constructor
  · intro h
    obtain ⟨hx, hy⟩ := isNaN_of_le h
    exact ⟨hx, hy, (le_iff_value_le hx hy).1 h⟩
  · rintro ⟨hx, hy, h⟩
    exact (le_iff_value_le hx hy).2 h

/-- They count as equal exactly if both are numbers of one value. -/
theorem beq_iff_number {x y : Float} : (x == y) = true ↔ x.isNaN = false ∧ y.isNaN = false ∧ value x = value y := by
  constructor
  · intro h
    obtain ⟨hx, hy⟩ := isNaN_of_beq h
    exact ⟨hx, hy, (beq_iff_value_eq hx hy).1 h⟩
  · rintro ⟨hx, hy, h⟩
    exact (beq_iff_value_eq hx hy).2 h

/-! ## Values and words -/

/-- The size of the number coded by the lower 63 bits of a word. -/
def size (w : ℕ) : ℚ :=
  if w < 2 ^ 52 then w * 2 ^ (-1074 : ℤ) else (2 ^ 52 + w % 2 ^ 52 : ℕ) * 2 ^ ((w / 2 ^ 52 : ℕ) - 1075 : ℤ)

/-- Words without an exponent are multiples of the smallest spacing. -/
theorem size_of_lt {w : ℕ} (h : w < 2 ^ 52) : size w = w * 2 ^ (-1074 : ℤ) := if_pos h

/-- Other words add the leading bit to the mantissa. -/
theorem size_of_fields {k m : ℕ} (hk : 0 < k) (hm : m < 2 ^ 52) :
    size (k * 2 ^ 52 + m) = (2 ^ 52 + m : ℕ) * 2 ^ (k - 1075 : ℤ) := by
  have h1 : (k * 2 ^ 52 + m) % 2 ^ 52 = m := by omega
  have h2 : (k * 2 ^ 52 + m) / 2 ^ 52 = k := by omega
  rw [size, if_neg (by omega), h1, h2]

@[simp] theorem size_zero : size 0 = 0 := by
  rw [size_of_lt (by norm_num), Nat.cast_zero, zero_mul]

/-- The word of infinity codes the first power of two above the doubles. -/
theorem size_infinityWord : size infinityWord = limit := by
  have h : infinityWord = 2047 * 2 ^ 52 + 0 := rfl
  rw [h, size_of_fields (by norm_num) (by norm_num), ← two_zpow_mul_two_zpow (show (52 : ℤ) + 972 = 1024 by norm_num)]
  norm_num

/-- The next word codes a larger number. -/
theorem size_lt_size_succ (w : ℕ) : size w < size (w + 1) := by
  rcases Nat.lt_or_ge w (2 ^ 52) with hw | hw
  · rw [size_of_lt hw]
    rcases Nat.lt_or_ge (w + 1) (2 ^ 52) with hw' | hw'
    · rw [size_of_lt hw']
      exact mul_lt_mul_of_pos_right (by exact_mod_cast Nat.lt_succ_self w) (two_zpow_pos _)
    · have h : w + 1 = 1 * 2 ^ 52 + 0 := by omega
      rw [h, size_of_fields one_pos (by norm_num)]
      exact mul_lt_mul_of_pos_right (by exact_mod_cast hw) (two_zpow_pos _)
  · obtain ⟨k, m, rfl, hm, hk⟩ : ∃ k m, w = k * 2 ^ 52 + m ∧ m < 2 ^ 52 ∧ 0 < k :=
      ⟨w / 2 ^ 52, w % 2 ^ 52, by omega, by omega, by omega⟩
    rw [size_of_fields hk hm]
    rcases Nat.lt_or_ge (m + 1) (2 ^ 52) with hm' | hm'
    · rw [add_assoc, size_of_fields hk hm']
      exact mul_lt_mul_of_pos_right (by exact_mod_cast Nat.lt_succ_self _) (two_zpow_pos _)
    · have carry : k * 2 ^ 52 + m + 1 = (k + 1) * 2 ^ 52 + 0 := by omega
      have he : ((k + 1 : ℕ) - 1075 : ℤ) = (k - 1075 : ℤ) + 1 := by omega
      rw [carry, size_of_fields k.succ_pos (by norm_num), he, zpow_add_one₀ (by norm_num), mul_comm (2 ^ (k - 1075 : ℤ)), ← mul_assoc]
      refine mul_lt_mul_of_pos_right ?_ (two_zpow_pos _)
      exact_mod_cast (by omega : 2 ^ 52 + m < (2 ^ 52 + 0) * 2)

/-- Words are in the order of the sizes that they code. -/
theorem size_strictMono : StrictMono size := strictMono_nat_of_lt_succ size_lt_size_succ

/-- A word that does not code a NaN unpacks to its sign and the size that it codes. -/
theorem rational_unpack {b : BitVec 64} (h : (UnpackedFloat.unpack .binary64 b).isNaN = false) :
    b.toNat % signWord ≤ infinityWord ∧
      rational (UnpackedFloat.unpack .binary64 b) = signed (signOf b.toNat) (size (b.toNat % signWord)) := by
  have hw := b.isLt
  have hs : b.toNat % signWord = b.toNat / 2 ^ 52 % 2 ^ 11 * 2 ^ 52 + b.toNat % 2 ^ 52 := by
    simp only [signWord]
    omega
  have hi : infinityWord = 2047 * 2 ^ 52 := rfl
  rcases unpack_eq b with ⟨h1, h0, hu⟩ | ⟨-, -, hu⟩ | ⟨h1, h0, hu⟩ | ⟨h1, hp, hu⟩ | ⟨h0, h1, hp, hu⟩ <;> rw [hu] at h ⊢
  · rw [hs, h1, h0, add_zero, ← hi, size_infinityWord]
    exact ⟨le_rfl, rfl⟩
  · cases h
  · rw [hs, h1, h0, zero_mul, zero_add, size_zero, signed_zero]
    exact ⟨Nat.zero_le _, rfl⟩
  · rw [hs, h1, zero_mul, zero_add, size_of_lt (by omega), hi]
    exact ⟨by omega, rfl⟩
  · rw [hs, size_of_fields h0 (by omega), hi]
    exact ⟨by omega, rfl⟩

/-- A double is its sign and the size that its word codes. -/
theorem value_eq_size {x : Float} (h : x.isNaN = false) :
    x.toBits.toNat % signWord ≤ infinityWord ∧
      value x = signed (signOf x.toBits.toNat) (size (x.toBits.toNat % signWord)) :=
  rational_unpack (b := x.toBits.toBitVec) h

end GlobeDrag.Binary64
