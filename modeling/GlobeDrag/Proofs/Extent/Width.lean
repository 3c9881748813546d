import GlobeDrag.Proofs.Extent

/-!
# The width read back

A drawable extent is read back with a positive height. Its width is positive as well, except where the box wraps and its bounds were
rounded to the two names of the date line, `-180` in the east and `180` in the west, or to within the last digit of them: such an
extent counts as drawable, for its bounds differ, and has no width.

Main statements: `zero_lt_height`, `zero_lt_width_of_plain` and `width_of_crossing`.
-/

namespace GlobeDrag.Extent

open Angle Binary64

/-! ## The last digits before the date line -/

/-- The spacing of the doubles next below 180 degrees. -/
def digit : ℚ := 1 / 2 ^ 45

/-- The spacing of the doubles about half a turn in radians. -/
def radianDigit : ℚ := 1 / 2 ^ 51

/-- A double that does not exceed 180 is 180, the double before it, or at most the one before that. -/
theorem last_digits {x : Float} (h : value x ≤ 180) :
    value x = 180 ∨ value x = 180 - digit ∨ value x ≤ 180 - 2 * digit := by
  rcases lt_or_ge (value x) 128 with hlt | hge
  · refine Or.inr (Or.inr ?_)
    rw [digit]
    linarith
  · have habs : (2 : ℚ) ^ (-45 + 52 : ℤ) ≤ |value x| := by
      rw [abs_of_nonneg (by linarith)]
      norm_num
      exact hge
    obtain ⟨n, hn⟩ := (onGrid_value x).exists_mul_of_le habs
    have hd : (2 : ℚ) ^ (-45 : ℤ) = digit := by
      rw [digit]
      norm_num
    have h180 : (180 : ℚ) = (180 * 2 ^ 45 : ℤ) * digit := by
      rw [digit]
      norm_num
    have hpos : 0 < digit := by
      rw [digit]
      norm_num
    rw [hd] at hn
    have hle : n ≤ 180 * 2 ^ 45 := by
      rw [hn, h180] at h
      exact_mod_cast le_of_mul_le_mul_right h hpos
    obtain rfl | rfl | hle' : n = 180 * 2 ^ 45 ∨ n = 180 * 2 ^ 45 - 1 ∨ n ≤ 180 * 2 ^ 45 - 2 := by omega
    · exact Or.inl (hn.trans h180.symm)
    · refine Or.inr (Or.inl ?_)
      rw [hn, Int.cast_sub, Int.cast_one, sub_mul, one_mul, ← h180]
    · refine Or.inr (Or.inr ?_)
      have hle'' : (n : ℚ) ≤ (180 * 2 ^ 45 : ℤ) - 2 := by exact_mod_cast hle'
      calc value x = n * digit := hn
        _ ≤ ((180 * 2 ^ 45 : ℤ) - 2) * digit := mul_le_mul_of_nonneg_right hle'' hpos.le
        _ = 180 - 2 * digit := by rw [sub_mul, ← h180]

/-- In radians the last double before 180 degrees is one double before half a turn, and the one before it is three. -/
theorem toRadians_last_digits {x : Float} (hx : x.isNaN = false) (h : value x ≤ 180) :
    (value x = 180 ∧ value (toRadians x) = value halfTurn) ∨
      (value x = 180 - digit ∧ value (toRadians x) = value halfTurn - radianDigit) ∨
      (value x ≤ 180 - 2 * digit ∧ value (toRadians x) ≤ value halfTurn - 3 * radianDigit) := by
  have e0 : value (toRadians 180) = value halfTurn := by decide +kernel
  have e1 : value 179.99999999999997 = 180 - digit ∧ value (toRadians 179.99999999999997) = value halfTurn - radianDigit := by
    decide +kernel
  have e2 : value 179.99999999999994 = 180 - 2 * digit ∧
      value (toRadians 179.99999999999994) = value halfTurn - 3 * radianDigit := by
    decide +kernel
  have mono := isMonotone_toRadians
  rcases last_digits h with h | h | h
  · exact Or.inl ⟨h, e0 ▸ mono.value_congr hx (by decide) (h.trans value_180.symm)⟩
  · exact Or.inr (Or.inl ⟨h, e1.2 ▸ mono.value_congr hx (by decide) (h.trans e1.1.symm)⟩)
  · exact Or.inr (Or.inr ⟨h, e2.2 ▸ mono.value_le hx (by decide) (h.trans_eq e2.1.symm)⟩)

/-! ## The width over the date line -/

/-- Two bounds that are a full turn apart up to one digit have a full turn as their difference: that is a tie, and it goes to the even
neighbour. -/
theorem value_sub_of_close {e w : Float} (fe : e.isFinite = true) (fw : w.isFinite = true)
    (h : value e - value w ≤ -value fullTurn + radianDigit) (h' : -value fullTurn ≤ value e - value w) :
    value (e - w) = -value fullTurn := by
  have close : (toRadians 179.99999999999997).isFinite = true ∧
      value (toRadians 179.99999999999997) = value halfTurn - radianDigit ∧
      value (-halfTurn - toRadians 179.99999999999997) = -value fullTurn := by decide +kernel
  have tie : clamp (nearest (-value fullTurn + radianDigit)) = -value fullTurn := by
    have hq : value (-halfTurn) - value (toRadians 179.99999999999997) = -value fullTurn + radianDigit := by
      rw [close.2.1, value_neg, value_fullTurn]
      ring
    rw [← hq, ← (isNearest_sub isFinite_neg_halfTurn close.1).value_eq]
    exact close.2.2
  have hn := isNearest_sub fe fw
  refine le_antisymm ?_ ?_
  · rw [hn.value_eq, ← tie]
    exact clamp_mono (nearest_mono h)
  · rw [← value_neg] at h' ⊢
    exact hn.le_value isFinite_neg_fullTurn h'

/-- Two bounds that leave two digits of a full turn do not. -/
theorem lt_value_sub {e w : Float} (fe : e.isFinite = true) (fw : w.isFinite = true)
    (h : -value fullTurn + 2 * radianDigit ≤ value e - value w) : -value fullTurn < value (e - w) := by
  have hv : (-6.283185307179585 : Float).isFinite = true ∧
      value (-6.283185307179585) = -value fullTurn + 2 * radianDigit := by decide +kernel
  have := (isNearest_sub fe fw).le_value hv.1 (hv.2.trans_le h)
  rw [hv.2, radianDigit] at this
  linarith

variable {e w : Float}

/-- Degrees within half a turn of zero are finite in radians, and within half a turn of zero there. -/
theorem toRadians_mem {x : Float} (hx : x.isNaN = false) (h1 : -180 ≤ value x) (h2 : value x ≤ 180) :
    (toRadians x).isFinite = true ∧ -value halfTurn ≤ value (toRadians x) ∧ value (toRadians x) ≤ value halfTurn := by
  have hi : (toRadians 180).isFinite = true ∧ value (toRadians 180) = value halfTurn := by decide +kernel
  have lo : (toRadians (-180)).isFinite = true ∧ value (-180) = -180 ∧ value (toRadians (-180)) = -value halfTurn := by
    decide +kernel
  have mono := isMonotone_toRadians
  exact ⟨mono.isFinite_of_mem (by decide) (by decide) hx lo.1 hi.1 (lo.2.1.trans_le h1) (h2.trans_eq value_180.symm),
    lo.2.2 ▸ mono.value_le (by decide) hx (lo.2.1.trans_le h1), hi.2 ▸ mono.value_le hx (by decide) (h2.trans_eq value_180.symm)⟩

/-- The bounds `e` and `w` in degrees of a box that wraps, read back: the box has no width exactly if the bounds are a full turn apart
up to one digit. -/
theorem width_of_degrees (ne : e.isNaN = false) (nw : w.isNaN = false) (he : -180 ≤ value e) (hw : value w ≤ 180)
    (hlt : value e < value w) :
    (toRadians e - toRadians w + fullTurn).isNaN = false ∧
      (360 - digit ≤ value w - value e → value (toRadians e - toRadians w + fullTurn) = 0) ∧
      (value w - value e < 360 - digit → 0 < value (toRadians e - toRadians w + fullTurn)) := by
  obtain ⟨fe, e1, e2⟩ := toRadians_mem ne he (by linarith)
  obtain ⟨fw, w1, w2⟩ := toRadians_mem nw (by linarith) hw
  have mirrored : value (toRadians (-e)) = -value (toRadians e) := isOdd_toRadians.value_opposite ne
  have full := value_fullTurn
  obtain ⟨fd, -, d1, -⟩ := (isNearest_sub fe fw).of_mem_Icc isFinite_neg_fullTurn isFinite_fullTurn
    (by rw [value_neg]; linarith) (by linarith)
  rw [value_neg] at d1
  have east := toRadians_last_digits (x := -e) (by rwa [isNaN_neg]) (by rw [value_neg]; linarith)
  have west := toRadians_last_digits nw hw
  rw [value_neg, mirrored] at east
  have hd : 0 < digit := by rw [digit]; norm_num
  have hr : 0 < radianDigit := by rw [radianDigit]; norm_num
  have zero : value (toRadians e - toRadians w) = -value fullTurn →
      value (toRadians e - toRadians w + fullTurn) = 0 := by
    intro h
    rw [(isNearest_add fd isFinite_fullTurn).value_eq, h, neg_add_cancel, nearest_zero,
      clamp_of_abs_le (by rw [abs_zero]; exact limit_pos.le)]
  refine ⟨(isNearest_add fd isFinite_fullTurn).isNaN_eq, ?_, ?_⟩
  · intro h
    refine zero (value_sub_of_close fe fw ?_ (by linarith))
    rcases east with ⟨h1, h2⟩ | ⟨h1, h2⟩ | ⟨h1, h2⟩ <;> rcases west with ⟨h3, h4⟩ | ⟨h3, h4⟩ | ⟨h3, h4⟩ <;> linarith
  · intro h
    refine value_add_pos fd isFinite_fullTurn ?_
    have := lt_value_sub fe fw (by
      rcases east with ⟨h1, h2⟩ | ⟨h1, h2⟩ | ⟨h1, h2⟩ <;> rcases west with ⟨h3, h4⟩ | ⟨h3, h4⟩ | ⟨h3, h4⟩ <;> linarith)
    linarith

/-! ## Drawable extents -/

/-- The eastern and the western bound are the two names of the date line, `-180` and `180`, up to the last digit of one of them. -/
def NamesDateLine (e : Extent) : Prop :=
  ∃ east west, e.east = some east ∧ e.west = some west ∧ 360 - digit ≤ value west - value east

variable {precision : ℕ} {r : Rectangle}

/-- Both ends of a turn are named if the stored bounds are a turn apart, but for one digit. -/
theorem namesDateLine_iff : (ofRectangle r precision).NamesDateLine ↔
    360 - digit ≤ value (stored precision r.west) - value (stored precision r.east) := by
  constructor
  · rintro ⟨_, _, he, hw, h⟩
    cases he
    cases hw
    exact h
  · exact fun h => ⟨_, _, rfl, rfl, h⟩

/-- The eastern end of the turn is stored exactly. -/
theorem value_stored_halfTurn (hp : precision ≤ 15) : value (stored precision halfTurn) = 180 := by
  obtain ⟨hf, hv⟩ := value_toDegrees_halfTurn
  rw [← (value_roundTo_180 hp).2]
  exact (isMonotone_roundTo hp).value_congr (isNaN_of_isFinite hf) (by decide) (hv.trans value_180.symm)

/-- So is the western end. -/
theorem value_stored_neg_halfTurn (hp : precision ≤ 15) : value (stored precision (-halfTurn)) = -180 := by
  obtain ⟨hf, hv⟩ := value_toDegrees_neg_halfTurn
  rw [← (value_roundTo_neg_180 hp).2]
  exact (isMonotone_roundTo hp).value_congr (isNaN_of_isFinite hf) (by decide) (hv.trans (by decide +kernel))

/-- A drawable extent is read back with a positive height. -/
theorem zero_lt_height (hp : precision ≤ 15) (hr : Numbers r) (hd : (ofRectangle r precision).isDrawable = true)
    (hle : value r.south ≤ value r.north) : 0 < (restoredBox precision r).height := by
  have hn := numbers_restoredBox hp hr
  exact zero_lt_sub hn.north hn.south (south_lt_north hp hr hd hle).1

/-- A drawable extent that does not wrap is read back with a positive width. -/
theorem zero_lt_width_of_plain (hp : precision ≤ 15) (hr : Numbers r) (hd : (ofRectangle r precision).isDrawable = true)
    (plain : r.crossesDateLine = false) :
    0 < (restoredBox precision r).width ∧ ¬(ofRectangle r precision).NamesDateLine := by
  obtain ⟨-, hf, -, hne⟩ := exists_restoredBox hd
  obtain ⟨hc, hs⟩ := east_lt_west_iff hp hr hd
  have hn := numbers_restoredBox hp hr
  rw [plain] at hc hs
  have hle : value (restoredBox precision r).west ≤ value (restoredBox precision r).east := by
    by_contra h
    have : (restoredBox precision r).crossesDateLine = true :=
      decide_eq_true ((lt_iff_value_lt hn.east hn.west).2 (not_le.1 h))
    rw [hc] at this
    cases this
  constructor
  · rw [Rectangle.width, hc]
    exact zero_lt_sub hn.east hn.west (lt_of_le_of_ne hle (value_ne_of_beq hn.east hn.west hne).symm)
  · intro h
    have hw : value (stored precision r.west) ≤ value (stored precision r.east) :=
      not_lt.1 fun h => by cases hs.1 ((lt_iff_value_lt (isNaN_of_isFinite hf.east) (isNaN_of_isFinite hf.west)).2 h)
    have := namesDateLine_iff.1 h
    rw [digit] at this
    linarith

/-- A drawable extent that wraps is read back without width exactly if its bounds are the two names of the date line. -/
theorem width_of_crossing (hp : precision ≤ 15) (hr : Numbers r) (hd : (ofRectangle r precision).isDrawable = true)
    (crossing : r.crossesDateLine = true) (he : -value halfTurn ≤ value r.east) (hw : value r.west ≤ value halfTurn) :
    ((ofRectangle r precision).NamesDateLine → ((restoredBox precision r).width == 0) = true) ∧
      (¬(ofRectangle r precision).NamesDateLine → 0 < (restoredBox precision r).width) := by
  obtain ⟨-, hf, -, -⟩ := exists_restoredBox hd
  obtain ⟨hc, hs⟩ := east_lt_west_iff hp hr hd
  have mono := isMonotone_stored hp
  have ne := isNaN_of_isFinite hf.east
  have nw := isNaN_of_isFinite hf.west
  have he' : -180 ≤ value (stored precision r.east) := by
    rw [← value_stored_neg_halfTurn hp]
    exact mono.value_le (isNaN_of_isFinite isFinite_neg_halfTurn) hr.east (by rwa [value_neg])
  have hw' : value (stored precision r.west) ≤ 180 := by
    rw [← value_stored_halfTurn hp]
    exact mono.value_le hr.west (by decide) hw
  have hlt := (lt_iff_value_lt ne nw).1 (hs.2 crossing)
  obtain ⟨nan, h1, h2⟩ := width_of_degrees ne nw he' hw' hlt
  have hwidth : (restoredBox precision r).width =
      toRadians (stored precision r.east) - toRadians (stored precision r.west) + fullTurn := by
    rw [Rectangle.width, hc, crossing]
    rfl
  have nz := isNaN_of_isFinite isFinite_zero
  rw [hwidth, namesDateLine_iff]
  constructor
  · intro h
    rw [beq_iff_value_eq nan nz, value_zero]
    exact h1 h
  · intro h
    rw [lt_iff_value_lt nz nan, value_zero]
    exact h2 (not_le.1 h)

end GlobeDrag.Extent
