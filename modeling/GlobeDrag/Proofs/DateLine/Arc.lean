import GlobeDrag.Proofs.DateLine.Exact

/-!
# Arcs of the turn

Longitudes that are full turns apart lie on one meridian. The longitudes between two bounds are those of the meridians that are met on the
way from the western bound eastward to the eastern one, and the way leads over the date line where the eastern bound is below the western
one.

Main statements: `covers_iff_isMet` (the comparisons with the bounds are membership of the arc), and `covers_or_covers_exchanged`,
`covers_both_iff` and `arc_add_arc` (bounds that are exchanged give the rest of the turn).
-/

namespace GlobeDrag.DateLine

/-! ## Between two bounds -/

section Order

variable {K : Type} [LinearOrder K] {east west longitude : K}

/-- Bounds that wrap leave out what lies between them. -/
theorem covers_of_lt (h : east < west) : covers east west longitude = true ↔ west ≤ longitude ∨ longitude ≤ east := by
  rw [covers, if_pos h, Bool.or_eq_true, decide_eq_true_iff, decide_eq_true_iff]

/-- Bounds that do not wrap take in what lies between them. -/
theorem covers_of_not_lt (h : ¬east < west) : covers east west longitude = true ↔ west ≤ longitude ∧ longitude ≤ east := by
  rw [covers, if_neg h, Bool.and_eq_true, decide_eq_true_iff, decide_eq_true_iff]

/-- With the bounds of a box that wraps, in one order or in the other, every longitude is covered. -/
theorem covers_or_covers_exchanged (h : east < west) (longitude : K) :
    covers east west longitude = true ∨ covers west east longitude = true := by
  rw [covers_of_lt h, covers_of_not_lt h.asymm]
  rcases le_total west longitude with hw | hw
  · exact Or.inl (Or.inl hw)
  · rcases le_total longitude east with he | he
    · exact Or.inl (Or.inr he)
    · exact Or.inr ⟨he, hw⟩

/-- In both orders, only the bounds themselves are. -/
theorem covers_both_iff (h : east < west) :
    covers east west longitude = true ∧ covers west east longitude = true ↔ longitude = east ∨ longitude = west := by
  rw [covers_of_lt h, covers_of_not_lt h.asymm]
  constructor
  · rintro ⟨hw | he, he', hw'⟩
    · exact Or.inr (le_antisymm hw' hw)
    · exact Or.inl (le_antisymm he he')
  · rintro (rfl | rfl)
    · exact ⟨Or.inr le_rfl, le_rfl, h.le⟩
    · exact ⟨Or.inl le_rfl, h.le, le_rfl⟩

end Order

/-! ## Arcs -/

section Field

variable {K : Type} [Field K] [LinearOrder K] {half turn east west longitude : K}

/-- The angle from the western bound eastward to the eastern one. -/
def arc (turn east west : K) : K :=
  if east < west then east - west + turn else east - west

/-- The meridian of a longitude is met within the angle `width` on the way eastward from `west`. -/
def IsMet (turn west width longitude : K) : Prop :=
  ∃ turns : ℤ, west ≤ longitude + turns * turn ∧ longitude + turns * turn ≤ west + width

theorem arc_of_lt (h : east < west) : arc turn east west = east - west + turn := if_pos h

theorem arc_of_not_lt (h : ¬east < west) : arc turn east west = east - west := if_neg h

/-- The arcs between two bounds in one order and in the other are a full turn. -/
theorem arc_add_arc (h : east < west) : arc turn east west + arc turn west east = turn := by
  rw [arc_of_lt h, arc_of_not_lt h.asymm]
  ring

variable [IsStrictOrderedRing K]

/-- Numbers of turns compare as the angles that they come to. -/
theorem turns_lt_of_mul_lt {turns bound : ℤ} (h0 : 0 < turn) (h : turns * turn < bound * turn) : turns < bound := by
  exact_mod_cast lt_of_mul_lt_mul_right h h0.le

/-- A longitude in the turn lies between two bounds in the turn exactly if its meridian is met within the angle from the western bound
eastward to the eastern one. -/
theorem covers_iff_isMet (full : turn = 2 * half) (he : east ∈ Set.Ioc (-half) half) (hw : west ∈ Set.Ioc (-half) half)
    (hx : longitude ∈ Set.Ioc (-half) half) :
    covers east west longitude = true ↔ IsMet turn west (arc turn east west) longitude := by
  obtain ⟨e1, e2⟩ := he
  obtain ⟨w1, w2⟩ := hw
  obtain ⟨x1, x2⟩ := hx
  have turn_pos : 0 < turn := by linarith
  have at_least {turns : ℤ} (h : west ≤ longitude + turns * turn) : -1 < turns := by
    refine turns_lt_of_mul_lt turn_pos ?_
    push_cast
    linarith
  by_cases wraps : east < west
  · rw [covers_of_lt wraps, arc_of_lt wraps]
    constructor
    · rintro (h | h)
      · exact ⟨0, by simpa using h, by push_cast; linarith⟩
      · exact ⟨1, by push_cast; linarith, by push_cast; linarith⟩
    · rintro ⟨turns, h1, h2⟩
      have at_most : turns < 2 := by
        refine turns_lt_of_mul_lt turn_pos ?_
        push_cast
        linarith
      obtain rfl | rfl : turns = 0 ∨ turns = 1 := by
        have := at_least h1
        omega
      · exact Or.inl (by simpa using h1)
      · right
        push_cast at h2
        linarith
  · rw [covers_of_not_lt wraps, arc_of_not_lt wraps]
    constructor
    · rintro ⟨h1, h2⟩
      exact ⟨0, by simpa using h1, by push_cast; linarith⟩
    · rintro ⟨turns, h1, h2⟩
      have at_most : turns < 1 := by
        refine turns_lt_of_mul_lt turn_pos ?_
        push_cast
        linarith
      obtain rfl : turns = 0 := by
        have := at_least h1
        omega
      push_cast at h1 h2
      exact ⟨by linarith, by linarith⟩

end Field

/-! ## Doubles -/

open Binary64 (value lt_iff_value_lt le_iff_value_le)

/-- Doubles lie between bounds as their exact values do. -/
theorem covers_value {east west longitude : Float} (he : east.isNaN = false) (hw : west.isNaN = false)
    (hx : longitude.isNaN = false) : covers (value east) (value west) (value longitude) = covers east west longitude := by
  simp only [covers, lt_iff_value_lt he hw, le_iff_value_le hw hx, le_iff_value_le hx he]

end GlobeDrag.DateLine
