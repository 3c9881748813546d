import GlobeDrag.Proofs.Binary64.Value

/-!
# The next double

The doubles that are numbers stand in a row, numbered by `rank`: both zeros have rank zero, and the next double has the next rank.

Main statements: `value_lt_iff_rank_lt` (values are ordered as ranks) and `successor?_least` (the next double is the least one above).
-/

namespace GlobeDrag.Binary64

open Float.Model (UnpackedFloat)

/-- The value at a place in the row of doubles. -/
def valueAt (r : ℤ) : ℚ :=
  if 0 ≤ r then size r.toNat else -size (-r).toNat

/-- Ranks are in the order of the numbers. -/
theorem valueAt_strictMono : StrictMono valueAt := by
  intro r r' h
  have hz := size_zero
  rcases lt_or_ge r 0 with hr | hr
  · have hp : size 0 < size (-r).toNat := size_strictMono (by omega)
    rcases lt_or_ge r' 0 with hr' | hr'
    · have hs : size (-r').toNat < size (-r).toNat := size_strictMono (by omega)
      rw [valueAt, valueAt, if_neg (by omega), if_neg (by omega)]
      linarith
    · have hn : size 0 ≤ size r'.toNat := size_strictMono.monotone (Nat.zero_le _)
      rw [valueAt, valueAt, if_neg (by omega), if_pos hr']
      linarith
  · rw [valueAt, valueAt, if_pos hr, if_pos (by omega)]
    exact size_strictMono (by omega)

/-- The place of a double in the row of doubles. -/
def rank (x : Float) : ℤ :=
  if x.toBits.toNat < signWord then x.toBits.toNat else -(x.toBits.toNat - signWord : ℤ)

/-- A double is known from its rank, up to the sign of a zero. -/
theorem value_eq_valueAt {x : Float} (h : x.isNaN = false) : value x = valueAt (rank x) := by
  have hb := x.toBits.toNat_lt
  have hs : signWord = 2 ^ 63 := rfl
  obtain ⟨-, hv⟩ := value_eq_size h
  rw [hv, signOf, rank]
  by_cases hw : x.toBits.toNat < signWord
  · rw [if_pos hw, if_pos hw, Nat.mod_eq_of_lt hw, valueAt, if_pos (Int.natCast_nonneg _), Int.toNat_natCast, signed_positive]
  · have hm : x.toBits.toNat % signWord = x.toBits.toNat - signWord := by
      rw [hs] at hw ⊢
      omega
    rw [if_neg hw, if_neg hw, hm, signed_negative, valueAt]
    split
    · next h0 =>
      have h1 : x.toBits.toNat - signWord = 0 := by omega
      have h2 : (-(x.toBits.toNat - signWord : ℤ)).toNat = 0 := by omega
      rw [h1, h2, size_zero, neg_zero]
    · next h0 =>
      have h1 : (-(-(x.toBits.toNat - signWord : ℤ))).toNat = x.toBits.toNat - signWord := by omega
      rw [h1]

/-- The values of doubles are ordered as their places in the row. -/
theorem value_lt_iff_rank_lt {x y : Float} (hx : x.isNaN = false) (hy : y.isNaN = false) :
    value x < value y ↔ rank x < rank y := by
  rw [value_eq_valueAt hx, value_eq_valueAt hy]
  exact valueAt_strictMono.lt_iff_lt

/-- The double of a word up to that of infinity is a number. -/
theorem isNaN_ofWord (w : UInt64) (h : w.toNat % signWord ≤ infinityWord) : (ofWord w h).isNaN = false := by
  change (UnpackedFloat.unpack .binary64 w.toBitVec).isNaN = false
  have hn : w.toBitVec.toNat = w.toNat := rfl
  have hw := w.toNat_lt
  rw [← hn] at h
  simp only [signWord, infinityWord] at h
  rcases unpack_eq w.toBitVec with ⟨-, -, hu⟩ | ⟨h1, h2, -⟩ | ⟨-, -, hu⟩ | ⟨-, _, hu⟩ | ⟨-, -, _, hu⟩
  · rw [hu]
    rfl
  · omega
  · rw [hu]
    rfl
  · rw [hu]
    rfl
  · rw [hu]
    rfl

/-- A step to the next double is a step in the row. -/
theorem rank_successor? {x y : Float} (h : successor? x = some y) : y.isNaN = false ∧ rank y = rank x + 1 := by
  have one : (1 : UInt64).toNat = 1 := rfl
  have hb := x.toBits.toNat_lt
  have hs : signWord = 2 ^ 63 := rfl
  have hi : infinityWord < 2 ^ 63 := by decide
  simp only [successor?] at h
  split at h
  · next h0 =>
    cases h
    rw [hs] at h0
    refine ⟨isNaN_ofWord _ _, ?_⟩
    rw [rank, rank, toBits_ofWord, one, if_pos (by omega)]
    split <;> omega
  · split at h
    · next h1 =>
      cases h
      have hn : (x.toBits + 1).toNat = x.toBits.toNat + 1 := by
        rw [UInt64.toNat_add, one]
        omega
      refine ⟨isNaN_ofWord _ _, ?_⟩
      rw [rank, rank, toBits_ofWord, hn, if_pos (by omega), if_pos (by omega)]
      omega
    · split at h
      · next h2 =>
        cases h
        have hle : (1 : UInt64) ≤ x.toBits := by
          rw [UInt64.le_iff_toNat_le, one]
          omega
        have hn : (x.toBits - 1).toNat = x.toBits.toNat - 1 := by
          rw [UInt64.toNat_sub_of_le _ _ hle, one]
        refine ⟨isNaN_ofWord _ _, ?_⟩
        rw [rank, rank, toBits_ofWord, hn, if_neg (by omega), if_neg (by omega)]
        omega
      · cases h

/-- The next double is the least one above. -/
theorem successor?_least {x y : Float} (hx : x.isNaN = false) (h : successor? x = some y) :
    value x < value y ∧ ∀ z : Float, z.isNaN = false → value x < value z → value y ≤ value z := by
  obtain ⟨hy, hr⟩ := rank_successor? h
  refine ⟨(value_lt_iff_rank_lt hx hy).2 (by omega), ?_⟩
  intro z hz hlt
  have := (value_lt_iff_rank_lt hx hz).1 hlt
  by_contra hle
  have := (value_lt_iff_rank_lt hz hy).1 (not_le.1 hle)
  omega

/-- Of the numbers only positive infinity has no next double. -/
theorem value_of_successor?_eq_none {x : Float} (hx : x.isNaN = false) (none : successor? x = none) : value x = limit := by
  have hb := x.toBits.toNat_lt
  have hs : signWord = 2 ^ 63 := rfl
  obtain ⟨hm, hv⟩ := value_eq_size hx
  simp only [successor?] at none
  split at none
  · cases none
  · next h0 =>
    split at none
    · cases none
    · next h1 =>
      split at none
      · cases none
      · next h2 =>
        rw [hs] at hm h0 h2 hv
        have isInfinityWord : x.toBits.toNat = infinityWord := by omega
        have hinf : infinityWord % 2 ^ 63 = infinityWord := rfl
        have hsign : signOf infinityWord = .positive := rfl
        rw [hv, isInfinityWord, hinf, hsign, signed_positive, size_infinityWord]

/-- Every finite double has a next one. -/
theorem successor?_ne_none {x : Float} (h : x.isFinite = true) : successor? x ≠ none := by
  intro none
  have top := value_of_successor?_eq_none (isNaN_of_isFinite h) none
  exact (abs_lt.1 (abs_value_lt h)).2.ne top

end GlobeDrag.Binary64
