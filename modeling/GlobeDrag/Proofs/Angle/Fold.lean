import GlobeDrag.Proofs.Angle
import GlobeDrag.Proofs.Binary64.Drift

/-!
# Folded longitudes

Folding takes whole turns off a longitude, without an error in the remainder itself: the sum that it starts with is rounded, and so are one
turn that may be added to the remainder and the half turn that is taken off it. The last two are angles below a turn, so only the first
rounding grows with the longitude.

Main statement: `normalize_folds` (where a longitude is folded to, what stays, and how far the result is from whole turns).
-/

namespace GlobeDrag.Angle

open Binary64

/-! ## How far folding is from whole turns -/

/-- The remainder of a sum is close to the sum less a whole number of turns. -/
theorem exists_abs_modulo_sub_le {s : Float} (h : s.isFinite = true) :
    ∃ turns : ℤ, |value (modulo s fullTurn) - (value s - turns * value fullTurn)| ≤ 2 ^ (-51 : ℤ) := by
  have full := value_fullTurn
  have upper := value_halfTurn_lt
  obtain ⟨turns, low, high, near⟩ := isNearest_modulo h isFinite_fullTurn value_fullTurn_pos
  obtain ⟨finite, -⟩ := modulo_mem h isFinite_fullTurn value_fullTurn_pos
  refine ⟨turns, ?_⟩
  rw [near.value_of_isFinite finite]
  refine (abs_nearest_sub_le_of_lt (e := -50) ?_ (by norm_num)).trans_eq (by norm_num)
  rw [abs_of_nonneg low]
  norm_num
  linarith

/-- Half a turn taken off an angle of one turn at most is rounded little. -/
theorem abs_sub_halfTurn_sub_le {folded r : Float} (near : IsNearest folded (value r - value halfTurn)) (h : folded.isFinite = true)
    (low : 0 ≤ value r) (high : value r ≤ value fullTurn) : |value folded - (value r - value halfTurn)| ≤ 2 ^ (-52 : ℤ) := by
  have upper := value_halfTurn_lt
  rw [value_fullTurn] at high
  rw [near.value_of_isFinite h]
  refine (abs_nearest_sub_le_of_lt (e := -51) ?_ (by norm_num)).trans_eq (by norm_num)
  rw [abs_lt]
  norm_num
  constructor <;> linarith

/-- A longitude outside the turn is folded by whole turns, up to the rounding of its distance from the excluded end and of two
angles within the turn. -/
theorem exists_abs_normalize_sub_le {x : Float} (h : x.isFinite = true) :
    ∃ turns : ℤ, |value (normalize x) - (value x - turns * value fullTurn)| ≤ ulp (x + halfTurn) / 2 + 2 ^ (-50 : ℤ) := by
  by_cases hin : -halfTurn < x ∧ x ≤ halfTurn
  · refine ⟨0, ?_⟩
    rw [normalize_of_mem hin.1 hin.2, Int.cast_zero, zero_mul, sub_zero, sub_self, abs_zero]
    exact (add_pos (half_pos (ulp_pos _)) (two_zpow_pos _)).le
  · have sum := isFinite_add_halfTurn h
    have first := (isNearest_add h isFinite_halfTurn).abs_sub_le_ulp sum
    obtain ⟨turns, second⟩ := exists_abs_modulo_sub_le sum
    obtain ⟨folded, near, hf, h1, h2, -, hv⟩ := normalize_of_not_mem h hin
    obtain ⟨-, m1, m2⟩ := modulo_mem sum isFinite_fullTurn value_fullTurn_pos
    have third := abs_sub_halfTurn_sub_le near hf m1 m2
    have total : |value folded - (value x - turns * value fullTurn)| ≤ ulp (x + halfTurn) / 2 + 2 ^ (-50 : ℤ) := by
      calc |value folded - (value x - turns * value fullTurn)|
          = |value folded - (value (modulo (x + halfTurn) fullTurn) - value halfTurn) +
              (value (modulo (x + halfTurn) fullTurn) - (value (x + halfTurn) - turns * value fullTurn)) +
              (value (x + halfTurn) - (value x + value halfTurn))| := by
            congr 1
            ring
        _ ≤ 2 ^ (-52 : ℤ) + 2 ^ (-51 : ℤ) + ulp (x + halfTurn) / 2 :=
            (abs_add_three _ _ _).trans (add_le_add (add_le_add third second) first)
        _ ≤ ulp (x + halfTurn) / 2 + 2 ^ (-50 : ℤ) := by
            rw [add_comm]
            exact add_le_add_right (by norm_num) _
    rw [hv]
    split
    · next excluded =>
      refine ⟨turns - 1, ?_⟩
      have same : value halfTurn - (value x - (turns - 1 : ℤ) * value fullTurn) = value folded - (value x - turns * value fullTurn) := by
        rw [excluded, value_fullTurn]
        push_cast
        ring
      rwa [same]
    · exact ⟨turns, total⟩

/-- Every finite longitude is folded into the turn. One that is there already stays as it is, so that folding a second time changes
nothing. Otherwise whole turns are taken off, up to half of the last place of its distance from the excluded end and an angle
far below any other in use. -/
theorem normalize_folds {x : Float} (h : x.isFinite = true) :
    (-halfTurn < normalize x ∧ normalize x ≤ halfTurn) ∧
    (-halfTurn < x ∧ x ≤ halfTurn → (normalize x).toBits = x.toBits) ∧
    normalize (normalize x) = normalize x ∧
    ∃ turns : ℤ, |value (normalize x) - (value x - turns * value fullTurn)| ≤ ulp (x + halfTurn) / 2 + 2 ^ (-50 : ℤ) := by
  have inside := (inTurn_normalize h).mem
  refine ⟨inside, ?_, normalize_of_mem inside.1 inside.2, exists_abs_normalize_sub_le h⟩
  rintro ⟨low, high⟩
  rw [normalize_of_mem low high]

/-- The double just beyond the excluded end is folded onto the date line. -/
theorem normalize_folds_beyond_end :
    let x : Float := -3.1415926535897936
    x.isFinite = true ∧ ¬-halfTurn < x ∧ (normalize x).toBits = halfTurn.toBits ∧
      (-halfTurn < normalize x ∧ normalize x ≤ halfTurn) ∧ normalize (normalize x) = normalize x ∧
      ∃ turns : ℤ, |value (normalize x) - (value x - turns * value fullTurn)| ≤ ulp (x + halfTurn) / 2 + 2 ^ (-50 : ℤ) := by
  intro x
  have finite : x.isFinite = true := by decide +kernel
  obtain ⟨inside, -, again, turns⟩ := normalize_folds finite
  exact ⟨finite, by decide +kernel, by decide +kernel, inside, again, turns⟩

end GlobeDrag.Angle
