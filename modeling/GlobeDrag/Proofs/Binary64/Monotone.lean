import GlobeDrag.Proofs.Binary64.Whole

/-!
# Operations that keep the order

An operation on doubles is monotone when it keeps the order of numbers, the infinities among them. Scaling by a positive double and
rounding to a whole number are, and so is what is composed of them.

Main statements: `isMonotone_mul`, `isMonotone_div`, `isMonotone_round` and `IsMonotone.comp`; `isOdd_mul`, `isOdd_div`, `isOdd_round`
and `IsOdd.comp`; and `isFinite_add` (sums that do not overflow at the ends of the doubles do not overflow between them).
-/

namespace GlobeDrag.Binary64

/-! ## Monotone operations -/

/-- An operation on doubles that takes numbers to numbers and keeps their order. -/
structure IsMonotone (f : Float → Float) : Prop where
  isNaN_eq : ∀ {x : Float}, x.isNaN = false → (f x).isNaN = false
  value_le : ∀ {x y : Float}, x.isNaN = false → y.isNaN = false → value x ≤ value y → value (f x) ≤ value (f y)

/-- No number is beyond infinity. -/
theorem abs_value_le_limit {x : Float} (h : x.isNaN = false) : |value x| ≤ limit := by
  cases hf : x.isFinite with
  | true => exact (abs_value_lt hf).le
  | false =>
    obtain ⟨s, -, hs⟩ := unpack_of_infinite h hf
    rw [hs, abs_signed, abs_of_pos limit_pos]

/-- A number that is not finite and is above a finite double is infinity. -/
theorem value_of_infinite {x y : Float} (hx : x.isNaN = false) (hx' : x.isFinite = false) (hy : y.isFinite = true)
    (h : value y ≤ value x) : value x = limit := by
  obtain ⟨s, -, hs⟩ := unpack_of_infinite hx hx'
  cases s with
  | positive => exact hs
  | negative =>
    have hlt := (abs_lt.1 (abs_value_lt hy)).1
    rw [hs] at h
    exact absurd hlt (not_lt.2 h)

namespace IsMonotone

variable {f g : Float → Float}

/-- A function that keeps the order of values keeps that of doubles. -/
theorem le (h : IsMonotone f) {x y : Float} (hle : x ≤ y) : f x ≤ f y := by
  obtain ⟨hx, hy⟩ := isNaN_of_le hle
  exact (le_iff_value_le (h.isNaN_eq hx) (h.isNaN_eq hy)).2 (h.value_le hx hy (value_le_of_le hle))

/-- The value of a number decides the value of the result. -/
theorem value_congr (h : IsMonotone f) {x y : Float} (hx : x.isNaN = false) (hy : y.isNaN = false) (hv : value x = value y) :
    value (f x) = value (f y) :=
  le_antisymm (h.value_le hx hy hv.le) (h.value_le hy hx hv.ge)

/-- Functions that keep the order keep it one after another. -/
theorem comp (hg : IsMonotone g) (hf : IsMonotone f) : IsMonotone fun x => g (f x) where
  isNaN_eq h := hg.isNaN_eq (hf.isNaN_eq h)
  value_le hx hy h := hg.value_le (hf.isNaN_eq hx) (hf.isNaN_eq hy) (hf.value_le hx hy h)

/-- Between numbers with finite results the results are finite. -/
theorem isFinite_of_mem (h : IsMonotone f) {x y z : Float} (hx : x.isNaN = false) (hy : y.isNaN = false) (hz : z.isNaN = false)
    (fx : (f x).isFinite = true) (fy : (f y).isFinite = true) (h1 : value x ≤ value z) (h2 : value z ≤ value y) :
    (f z).isFinite = true := by
  have l1 := h.value_le hx hz h1
  have l2 := h.value_le hz hy h2
  exact isFinite_of_mem_Icc fx fy (h.isNaN_eq hz) l1 l2

/-- It is enough that finite doubles keep their order and that the infinities stay. -/
theorem of_isFinite (infinite : ∀ {x : Float}, x.isNaN = false → x.isFinite = false → (f x).isNaN = false ∧ value (f x) = value x)
    (finite : ∀ {x : Float}, x.isFinite = true → (f x).isNaN = false)
    (mono : ∀ {x y : Float}, x.isFinite = true → y.isFinite = true → value x ≤ value y → value (f x) ≤ value (f y)) :
    IsMonotone f := by
  have number : ∀ {x : Float}, x.isNaN = false → (f x).isNaN = false := by
    intro x hx
    cases hf : x.isFinite with
    | true => exact finite hf
    | false => exact (infinite hx hf).1
  have ends : ∀ {x : Float}, x.isNaN = false → x.isFinite = false → value x = limit ∨ value x = -limit := by
    intro x hx hf
    obtain ⟨s, -, hs⟩ := unpack_of_infinite hx hf
    cases s with
    | positive => exact Or.inl hs
    | negative => exact Or.inr hs
  refine ⟨number, ?_⟩
  intro x y hx hy hle
  have bx := abs_le.1 (abs_value_le_limit (number hx))
  have bY := abs_le.1 (abs_value_le_limit (number hy))
  have ly := abs_le.1 (abs_value_le_limit hy)
  cases fx : x.isFinite with
  | false =>
    rw [(infinite hx fx).2]
    rcases ends hx fx with top | bottom
    · cases fy : y.isFinite with
      | true =>
        have := abs_lt.1 (abs_value_lt fy)
        linarith
      | false =>
        rw [(infinite hy fy).2]
        exact hle
    · rw [bottom]
      exact bY.1
  | true =>
    cases fy : y.isFinite with
    | true => exact mono fx fy hle
    | false =>
      rw [(infinite hy fy).2]
      rcases ends hy fy with h | h
      · rw [h]
        exact bx.2
      · have := abs_lt.1 (abs_value_lt fx)
        linarith

end IsMonotone

variable {c : Float}

/-- Multiplying by a positive double keeps the order. -/
theorem isMonotone_mul (hc : c.isFinite = true) (h0 : 0 < value c) : IsMonotone (· * c) := by
  refine .of_isFinite ?_ ?_ ?_
  · intro x hx hf
    exact value_mul_of_infinite hx hf hc h0
  · intro x hx
    exact (isNearest_mul hx hc).isNaN_eq
  · intro x y hx hy h
    rw [(isNearest_mul hx hc).value_eq, (isNearest_mul hy hc).value_eq]
    exact clamp_mono (nearest_mono (mul_le_mul_of_nonneg_right h h0.le))

/-- So does dividing by one. -/
theorem isMonotone_div (hc : c.isFinite = true) (h0 : 0 < value c) : IsMonotone (· / c) := by
  refine .of_isFinite ?_ ?_ ?_
  · intro x hx hf
    exact value_div_of_infinite hx hf hc h0
  · intro x hx
    exact (isNearest_div hx hc h0.ne').isNaN_eq
  · intro x y hx hy h
    rw [(isNearest_div hx hc h0.ne').value_eq, (isNearest_div hy hc h0.ne').value_eq]
    exact clamp_mono (nearest_mono (div_le_div_of_nonneg_right h h0.le))

/-- An infinite double is not rounded. -/
theorem round_of_infinite {x : Float} (hx : x.isNaN = false) (hf : x.isFinite = false) : round x = x := by
  obtain ⟨s, hu, -⟩ := unpack_of_infinite hx hf
  rw [round, hu]

/-- Rounding to whole numbers keeps the order. -/
theorem isMonotone_round : IsMonotone round := by
  refine .of_isFinite ?_ ?_ ?_
  · intro x hx hf
    rw [round_of_infinite hx hf]
    exact ⟨hx, rfl⟩
  · intro x hx
    exact isNaN_of_isFinite (value_round hx).1
  · intro x y hx hy h
    rw [(value_round hx).2, (value_round hy).2]
    exact_mod_cast wholeAway_mono h

/-! ## Odd operations -/

/-- An operation on doubles that keeps signs apart: the opposite of a number leads to the opposite result. -/
structure IsOdd (f : Float → Float) : Prop where
  value_opposite : ∀ {x : Float}, x.isNaN = false → value (f (-x)) = -value (f x)

/-- The composition of odd operations is odd where the outer one goes by values. -/
theorem IsOdd.comp {f g : Float → Float} (hg : IsOdd g) (mg : IsMonotone g) (hf : IsOdd f) (mf : IsMonotone f) :
    IsOdd fun x => g (f x) := by
  constructor
  intro x hx
  have nx := mf.isNaN_eq hx
  have hn : value (f (-x)) = value (-f x) := by rw [hf.value_opposite hx, value_neg]
  rw [mg.value_congr (mf.isNaN_eq (by rwa [isNaN_neg])) (by rwa [isNaN_neg]) hn, hg.value_opposite nx]

/-- Multiplying treats both signs alike. -/
theorem isOdd_mul (hc : c.isFinite = true) (h0 : 0 < value c) : IsOdd (· * c) := by
  constructor
  intro x hx
  cases hf : x.isFinite with
  | true =>
    rw [(isNearest_mul hf hc).value_eq, (isNearest_mul (by rwa [isFinite_neg]) hc).value_eq, value_neg, neg_mul, nearest_neg,
      clamp_neg]
  | false =>
    rw [(value_mul_of_infinite hx hf hc h0).2, (value_mul_of_infinite (by rwa [isNaN_neg]) (by rwa [isFinite_neg]) hc h0).2,
      value_neg]

/-- So does dividing. -/
theorem isOdd_div (hc : c.isFinite = true) (h0 : 0 < value c) : IsOdd (· / c) := by
  constructor
  intro x hx
  cases hf : x.isFinite with
  | true =>
    rw [(isNearest_div hf hc h0.ne').value_eq, (isNearest_div (by rwa [isFinite_neg]) hc h0.ne').value_eq, value_neg, neg_div,
      nearest_neg, clamp_neg]
  | false =>
    rw [(value_div_of_infinite hx hf hc h0).2, (value_div_of_infinite (by rwa [isNaN_neg]) (by rwa [isFinite_neg]) hc h0).2,
      value_neg]

/-- So does rounding to whole numbers. -/
theorem isOdd_round : IsOdd round := by
  constructor
  intro x hx
  cases hf : x.isFinite with
  | true => rw [(value_round hf).2, (value_round (by rwa [isFinite_neg])).2, value_neg, wholeAway_neg, Int.cast_neg]
  | false => rw [round_of_infinite hx hf, round_of_infinite (by rwa [isNaN_neg]) (by rwa [isFinite_neg]), value_neg]

/-! ## Sums that do not overflow -/

/-- The largest finite double. -/
def largest : Float := ofWord 0x7fefffffffffffff (by decide)

theorem isFinite_largest : largest.isFinite = true := by decide

/-- No finite double is larger. -/
theorem abs_value_le_largest {x : Float} (h : x.isFinite = true) : |value x| ≤ value largest := by
  have hx := abs_value_lt h
  have hl : value largest = size (infinityWord - 1) := by
    obtain ⟨-, hv⟩ := value_eq_size (isNaN_of_isFinite isFinite_largest)
    exact hv
  obtain ⟨-, hv⟩ := value_eq_size (isNaN_of_isFinite h)
  have hs : |size (x.toBits.toNat % signWord)| = size (x.toBits.toNat % signWord) :=
    abs_of_nonneg (size_zero ▸ size_strictMono.monotone (Nat.zero_le _))
  rw [hv, abs_signed, hs] at hx ⊢
  rw [← size_infinityWord, size_strictMono.lt_iff_lt] at hx
  rw [hl]
  exact size_strictMono.monotone (Nat.le_sub_one_of_lt hx)

/-- A double whose sum with the largest one is finite does not overflow with any. -/
theorem isFinite_add {x c : Float} (hx : x.isFinite = true) (h1 : (largest + c).isFinite = true)
    (h2 : (-largest + c).isFinite = true) : (x + c).isFinite = true := by
  have hc := (isFinite_of_add h1).2
  have hn := (isNearest_add isFinite_largest hc).value_of_isFinite h1
  have hn' := (isNearest_add (by rw [isFinite_neg]; exact isFinite_largest) hc).value_of_isFinite h2
  have l1 := abs_lt.1 (abs_value_lt h1)
  have l2 := abs_lt.1 (abs_value_lt h2)
  obtain ⟨b1, b2⟩ := abs_le.1 (abs_value_le_largest hx)
  rw [value_neg] at hn'
  refine ((isNearest_add hx hc).of_abs_lt (abs_lt.2 ⟨?_, ?_⟩)).1
  · exact (hn' ▸ l2.1).trans_le (nearest_mono (by linarith))
  · exact (nearest_mono (by linarith)).trans_lt (hn ▸ l1.2)

/-- Whether a sum overflows does not depend on the sign of a zero. -/
theorem isFinite_add_congr {x y c : Float} (hx : x.isFinite = true) (hy : y.isFinite = true) (hv : value x = value y)
    (h : (x + c).isFinite = true) : (y + c).isFinite = true := by
  have hc := (isFinite_of_add h).2
  have hs := isNearest_add hx hc
  have hs' := isNearest_add hy hc
  have same : value (x + c) = value (y + c) := by rw [hs.value_eq, hs'.value_eq, hv]
  exact isFinite_iff.2 ⟨hs'.isNaN_eq, same ▸ abs_value_lt h⟩

end GlobeDrag.Binary64
