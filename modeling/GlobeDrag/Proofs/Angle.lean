import GlobeDrag.Angle
import GlobeDrag.Proofs.Binary64.Monotone

/-!
# Angles and their order

Conversions between degrees and radians keep the order, rounding to decimal places keeps it as well, and a longitude is folded into
the half-open turn.

Main statements: `isMonotone_toRadians`, `isMonotone_toDegrees` and `isMonotone_roundTo`, with their `isOdd` counterparts;
`inTurn_normalize` (a finite longitude is folded to one from `-halfTurn`, excluded, to `halfTurn`) and `normalize_of_mem` (one that is
there already stays); and the ends of the turn in degrees, which no rounding moves (`value_roundTo_180`).
-/

namespace GlobeDrag.Angle

open Binary64

/-! ## Constants -/

/-- Half a turn is a double with 50 significant bits. -/
theorem value_halfTurn : value halfTurn = 884279719003555 / 2 ^ 48 := by decide +kernel

/-- A full turn is exactly two half ones. -/
theorem value_fullTurn : value fullTurn = 2 * value halfTurn := by decide +kernel

theorem isFinite_halfTurn : halfTurn.isFinite = true := by decide

theorem isFinite_fullTurn : fullTurn.isFinite = true := by decide

theorem isFinite_neg_halfTurn : (-halfTurn).isFinite = true := by rw [isFinite_neg, isFinite_halfTurn]

theorem isFinite_neg_fullTurn : (-fullTurn).isFinite = true := by rw [isFinite_neg, isFinite_fullTurn]

@[simp] theorem value_180 : value 180 = 180 := (value_ofNat 180 (by decide)).2

theorem value_halfTurn_gt : 25 / 8 < value halfTurn := by
  rw [value_halfTurn]
  norm_num

theorem value_halfTurn_lt : value halfTurn < 16 / 5 := by
  rw [value_halfTurn]
  norm_num

theorem value_halfTurn_pos : 0 < value halfTurn :=
  lt_trans (by norm_num) value_halfTurn_gt

theorem value_fullTurn_pos : 0 < value fullTurn := by
  rw [value_fullTurn]
  linarith [value_halfTurn_pos]

/-- The powers of ten that settings may ask for are exact. -/
theorem value_powerOfTen {places : ℕ} (h : places ≤ 15) :
    (powerOfTen places).isFinite = true ∧ value (powerOfTen places) = 10 ^ places := by
  obtain ⟨finite, ten⟩ := value_ofNat 10 (by decide)
  have most : 1 * 10 ^ places ≤ 2 ^ 53 := by
    rw [one_mul]
    exact (Nat.pow_le_pow_right (by decide) h).trans (by norm_num)
  have one : value 1 = (1 : ℕ) := by rw [value_one, Nat.cast_one]
  obtain ⟨exact, number⟩ := value_timesPower (b := 10) isFinite_one one finite ten (by decide) (by decide) most
  rw [powerOfTen, if_pos (by rw [Decimal.wordLimit]; omega)]
  exact ⟨exact, by rw [number, one_mul, Nat.cast_pow, Nat.cast_ofNat]⟩

/-! ## Order -/

/-- Going to radians keeps the order. -/
theorem isMonotone_toRadians : IsMonotone toRadians :=
  (isMonotone_div (by decide) (by norm_num)).comp (isMonotone_mul isFinite_halfTurn value_halfTurn_pos)

/-- It treats both signs alike. -/
theorem isOdd_toRadians : IsOdd toRadians :=
  (isOdd_div (by decide) (by norm_num)).comp (isMonotone_div (by decide) (by norm_num))
    (isOdd_mul isFinite_halfTurn value_halfTurn_pos) (isMonotone_mul isFinite_halfTurn value_halfTurn_pos)

/-- Going to degrees keeps the order. -/
theorem isMonotone_toDegrees : IsMonotone toDegrees :=
  (isMonotone_div isFinite_halfTurn value_halfTurn_pos).comp (isMonotone_mul (by decide) (by norm_num))

/-- It treats both signs alike. -/
theorem isOdd_toDegrees : IsOdd toDegrees :=
  (isOdd_div isFinite_halfTurn value_halfTurn_pos).comp (isMonotone_div isFinite_halfTurn value_halfTurn_pos)
    (isOdd_mul (by decide) (by norm_num)) (isMonotone_mul (by decide) (by norm_num))

theorem roundTo_of_isFinite {x : Float} (places : ℕ) (h : x.isFinite = true) :
    roundTo x places = round (x * powerOfTen places) / powerOfTen places := by
  rw [roundTo, h]
  rfl

theorem roundTo_of_infinite {x : Float} (places : ℕ) (h : x.isFinite = false) : roundTo x places = x := by
  rw [roundTo, h]
  rfl

/-- Rounding to the decimal places that settings may ask for keeps the order. -/
theorem isMonotone_roundTo {places : ℕ} (h : places ≤ 15) : IsMonotone (roundTo · places) := by
  obtain ⟨hf, hv⟩ := value_powerOfTen h
  have hpos : 0 < value (powerOfTen places) := by
    rw [hv]
    positivity
  have hm : IsMonotone fun x => round (x * powerOfTen places) / powerOfTen places :=
    (isMonotone_div hf hpos).comp (isMonotone_round.comp (isMonotone_mul hf hpos))
  refine .of_isFinite ?_ ?_ ?_
  · intro x hx hx'
    rw [roundTo_of_infinite places hx']
    exact ⟨hx, rfl⟩
  · intro x hx
    rw [roundTo_of_isFinite places hx]
    exact hm.isNaN_eq (isNaN_of_isFinite hx)
  · intro x y hx hy hle
    rw [roundTo_of_isFinite places hx, roundTo_of_isFinite places hy]
    exact hm.value_le (isNaN_of_isFinite hx) (isNaN_of_isFinite hy) hle

/-- Rounding to such decimal places keeps signs apart. -/
theorem isOdd_roundTo {places : ℕ} (h : places ≤ 15) : IsOdd (roundTo · places) := by
  obtain ⟨hf, hv⟩ := value_powerOfTen h
  have hpos : 0 < value (powerOfTen places) := by
    rw [hv]
    positivity
  have scaled : IsOdd fun x => round (x * powerOfTen places) :=
    isOdd_round.comp isMonotone_round (isOdd_mul hf hpos) (isMonotone_mul hf hpos)
  have ho : IsOdd fun x => round (x * powerOfTen places) / powerOfTen places :=
    (isOdd_div hf hpos).comp (isMonotone_div hf hpos) scaled (isMonotone_round.comp (isMonotone_mul hf hpos))
  constructor
  intro x hx
  cases hx' : x.isFinite with
  | true =>
    rw [roundTo_of_isFinite places hx', roundTo_of_isFinite places (by rwa [isFinite_neg])]
    exact ho.value_opposite hx
  | false => rw [roundTo_of_infinite places hx', roundTo_of_infinite places (by rwa [isFinite_neg]), value_neg]

/-! ## The ends of the turn -/

/-- Half a turn is 180 degrees exactly. -/
theorem value_toDegrees_halfTurn : (toDegrees halfTurn).isFinite = true ∧ value (toDegrees halfTurn) = 180 := by decide +kernel

theorem value_toDegrees_neg_halfTurn :
    (toDegrees (-halfTurn)).isFinite = true ∧ value (toDegrees (-halfTurn)) = -180 := by decide +kernel

/-- The date line stays where it is at every number of decimal places. -/
theorem value_roundTo_180 {places : ℕ} (h : places ≤ 15) :
    (roundTo 180 places).isFinite = true ∧ value (roundTo 180 places) = 180 := by
  have all : ∀ p : Fin 16, (roundTo 180 p).isFinite = true ∧ value (roundTo 180 p) = 180 := by decide +kernel
  exact all ⟨places, by omega⟩

/-- Rounding leaves the western end as well. -/
theorem value_roundTo_neg_180 {places : ℕ} (h : places ≤ 15) :
    (roundTo (-180) places).isFinite = true ∧ value (roundTo (-180) places) = -180 := by
  have all : ∀ p : Fin 16, (roundTo (-180) p).isFinite = true ∧ value (roundTo (-180) p) = -180 := by decide +kernel
  exact all ⟨places, by omega⟩

/-! ## Folding -/

/-- A longitude lies in the turn from `-halfTurn`, which is excluded, to `halfTurn`. -/
structure InTurn (x : Float) : Prop where
  isFinite : x.isFinite = true
  lt_value : -value halfTurn < value x
  value_le : value x ≤ value halfTurn

/-- The sum that folding starts with does not overflow. -/
theorem isFinite_add_halfTurn {x : Float} (h : x.isFinite = true) : (x + halfTurn).isFinite = true :=
  isFinite_add h (by decide +kernel) (by decide +kernel)

/-- A longitude in the turn is left as it is. -/
theorem normalize_of_mem {x : Float} (h1 : -halfTurn < x) (h2 : x ≤ halfTurn) : normalize x = x := by
  have finite := isFinite_of_le_of_le isFinite_neg_halfTurn isFinite_halfTurn (le_of_lt_double h1) h2
  rw [normalize, finite, if_neg (by decide), if_pos ⟨h1, h2⟩]

/-- A longitude outside the turn is brought there: the remainder of the longitude counted from the excluded end, less half a turn. The
excluded end itself becomes the other one. -/
theorem normalize_of_not_mem {x : Float} (h : x.isFinite = true) (out : ¬(-halfTurn < x ∧ x ≤ halfTurn)) :
    ∃ folded : Float, IsNearest folded (value (modulo (x + halfTurn) fullTurn) - value halfTurn) ∧ folded.isFinite = true ∧
      -value halfTurn ≤ value folded ∧ value folded ≤ value halfTurn ∧ (normalize x).isFinite = true ∧
      value (normalize x) = if value folded = -value halfTurn then value halfTurn else value folded := by
  have hpos := value_halfTurn_pos
  have nh := isFinite_neg_halfTurn
  obtain ⟨hm, h0, hτ⟩ := modulo_mem (isFinite_add_halfTurn h) isFinite_fullTurn value_fullTurn_pos
  rw [value_fullTurn] at hτ
  have near := isNearest_sub hm isFinite_halfTurn
  obtain ⟨hf, -, h1, h2⟩ := near.of_mem_Icc nh isFinite_halfTurn (by rw [value_neg]; linarith) (by linarith)
  rw [value_neg] at h1
  have hend := le_iff_value_le (isNaN_of_isFinite hf) (isNaN_of_isFinite nh)
  rw [value_neg] at hend
  refine ⟨_, near, hf, h1, h2, ?_⟩
  rw [normalize, h, if_neg (by decide), if_neg out]
  simp only
  split
  · next hcut =>
    have atEnd := le_antisymm (hend.1 hcut) h1
    have turned : value (modulo (x + halfTurn) fullTurn - halfTurn) + value fullTurn = value halfTurn := by
      rw [atEnd, value_fullTurn]
      ring
    obtain ⟨hf', -, h3, h4⟩ := (isNearest_add hf isFinite_fullTurn).of_mem_Icc isFinite_halfTurn isFinite_halfTurn turned.ge turned.le
    rw [if_pos atEnd]
    exact ⟨hf', le_antisymm h4 h3⟩
  · next hcut =>
    rw [if_neg fun he => hcut (hend.2 he.le)]
    exact ⟨hf, rfl⟩

/-- A finite longitude is folded into the turn. -/
theorem inTurn_normalize {x : Float} (h : x.isFinite = true) : InTurn (normalize x) := by
  by_cases hin : -halfTurn < x ∧ x ≤ halfTurn
  · rw [normalize_of_mem hin.1 hin.2]
    have low := (lt_iff_number.1 hin.1).2.2
    rw [value_neg] at low
    exact ⟨h, low, value_le_of_le hin.2⟩
  · obtain ⟨folded, -, -, h1, h2, finite, hv⟩ := normalize_of_not_mem h hin
    have hpos := value_halfTurn_pos
    refine ⟨finite, ?_, ?_⟩ <;> rw [hv] <;> split
    · linarith
    · next apart => exact lt_of_le_of_ne h1 (Ne.symm apart)
    · exact le_rfl
    · exact h2

/-- Both bounds of the turn, as comparisons of doubles. -/
theorem InTurn.mem {x : Float} (h : InTurn x) : -halfTurn < x ∧ x ≤ halfTurn := by
  have nx := isNaN_of_isFinite h.isFinite
  have low := h.lt_value
  rw [← value_neg] at low
  exact ⟨(lt_iff_value_lt (isNaN_of_isFinite isFinite_neg_halfTurn) nx).2 low,
    (le_iff_value_le nx (isNaN_of_isFinite isFinite_halfTurn)).2 h.value_le⟩

end GlobeDrag.Angle
