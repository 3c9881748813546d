import GlobeDrag.Extent
import GlobeDrag.Proofs.Angle
import GlobeDrag.Proofs.Binary64.Difference

/-!
# Stored extents and the boxes they came from

Storing a box rounds its bounds, which keeps their order but may make bounds equal. An extent that is drawable has its bounds apart
after all, and then the box read back is in the same order as the box that was stored.

Main statements: `exists_restoredBox` (a drawable extent is read back with bounds that differ), `east_lt_west_iff` (it wraps as the box
did) and `south_lt_north` (its latitudes are apart).
-/

namespace GlobeDrag.Extent

open Angle Binary64

/-! ## Bounds -/

/-- The degrees kept of an angle in radians. -/
def stored (precision : ℕ) (x : Float) : Float :=
  roundTo (toDegrees x) precision

/-- The angle in radians read back from the degrees kept. -/
def restored (precision : ℕ) (x : Float) : Float :=
  toRadians (stored precision x)

/-- Storing keeps the order. -/
theorem isMonotone_stored {precision : ℕ} (hp : precision ≤ 15) : IsMonotone (stored precision) :=
  (isMonotone_roundTo hp).comp isMonotone_toDegrees

/-- So does storing and reading back. -/
theorem isMonotone_restored {precision : ℕ} (hp : precision ≤ 15) : IsMonotone (restored precision) :=
  isMonotone_toRadians.comp (isMonotone_stored hp)

/-- The box read back from the extent of a box. -/
def restoredBox (precision : ℕ) (r : Rectangle) : Rectangle :=
  ⟨restored precision r.north, restored precision r.south, restored precision r.east, restored precision r.west⟩

variable {precision : ℕ} {r q : Rectangle}

/-- The bounds of an extent are finite degrees. -/
structure FiniteBounds (precision : ℕ) (r : Rectangle) : Prop where
  north : (stored precision r.north).isFinite = true
  south : (stored precision r.south).isFinite = true
  east : (stored precision r.east).isFinite = true
  west : (stored precision r.west).isFinite = true

/-- An extent with a box has finite degrees, and the box is read back from them. -/
theorem rectangle?_eq_some (h : (ofRectangle r precision).rectangle? = some q) :
    q = restoredBox precision r ∧ FiniteBounds precision r := by
  simp only [rectangle?, ofRectangle, Option.bind_eq_bind, Option.bind_eq_some_iff, Option.filter_eq_some_iff, Option.some.injEq] at h
  obtain ⟨_, ⟨rfl, hn⟩, _, ⟨rfl, hs⟩, _, ⟨rfl, he⟩, _, ⟨rfl, hw⟩, hq⟩ := h
  exact ⟨(Option.some.inj hq).symm, hn, hs, he, hw⟩

/-- A drawable extent is read back with bounds that differ. -/
theorem exists_restoredBox (h : (ofRectangle r precision).isDrawable = true) :
    (ofRectangle r precision).rectangle? = some (restoredBox precision r) ∧ FiniteBounds precision r ∧
      ((restoredBox precision r).north == (restoredBox precision r).south) = false ∧
      ((restoredBox precision r).east == (restoredBox precision r).west) = false := by
  obtain ⟨q, hq, hne⟩ := (Option.any_eq_true _ _).1 h
  obtain ⟨rfl, hf⟩ := rectangle?_eq_some hq
  rw [bne, bne, Bool.and_eq_true, Bool.not_eq_true', Bool.not_eq_true'] at hne
  exact ⟨hq, hf, hne.1, hne.2⟩

/-! ## Order -/

/-- Whether the values of two bounds that are numbers differ. -/
theorem value_ne_of_beq {x y : Float} (hx : x.isNaN = false) (hy : y.isNaN = false) (h : (x == y) = false) :
    value x ≠ value y := by
  intro he
  rw [(beq_iff_value_eq hx hy).2 he] at h
  cases h

/-- Angles that are read back in different places were in the same order before. -/
theorem restored_lt_iff (hp : precision ≤ 15) {x y : Float} (hx : x.isNaN = false) (hy : y.isNaN = false)
    (hne : value (restored precision x) ≠ value (restored precision y)) :
    (value (restored precision x) < value (restored precision y) ↔ value x < value y) ∧
      (value (stored precision x) < value (stored precision y) ↔ value x < value y) := by
  have mr := isMonotone_restored hp
  have ms := isMonotone_stored hp
  have nsx := ms.isNaN_eq hx
  have nsy := ms.isNaN_eq hy
  have hns : value (stored precision x) ≠ value (stored precision y) := fun he =>
    hne (isMonotone_toRadians.value_congr nsx nsy he)
  rcases lt_or_ge (value x) (value y) with h | h
  · exact ⟨iff_of_true (lt_of_le_of_ne (mr.value_le hx hy h.le) hne) h,
      iff_of_true (lt_of_le_of_ne (ms.value_le hx hy h.le) hns) h⟩
  · exact ⟨iff_of_false (not_lt.2 (mr.value_le hy hx h)) (not_lt.2 h),
      iff_of_false (not_lt.2 (ms.value_le hy hx h)) (not_lt.2 h)⟩

/-- The bounds of a box are numbers. -/
structure Numbers (r : Rectangle) : Prop where
  north : r.north.isNaN = false
  south : r.south.isNaN = false
  east : r.east.isNaN = false
  west : r.west.isNaN = false

/-- The bounds of a finite box are numbers. -/
theorem numbers_of_isFinite (h : r.isFinite = true) : Numbers r := by
  simp only [Rectangle.isFinite, Bool.and_eq_true] at h
  exact ⟨isNaN_of_isFinite h.1.1.1, isNaN_of_isFinite h.1.1.2, isNaN_of_isFinite h.1.2, isNaN_of_isFinite h.2⟩

/-- Numbers are read back as numbers. -/
theorem numbers_restoredBox (hp : precision ≤ 15) (h : Numbers r) : Numbers (restoredBox precision r) := by
  have mr := isMonotone_restored hp
  exact ⟨mr.isNaN_eq h.north, mr.isNaN_eq h.south, mr.isNaN_eq h.east, mr.isNaN_eq h.west⟩

/-- A drawable extent and the box read back from it wrap exactly if the box did. -/
theorem east_lt_west_iff (hp : precision ≤ 15) (hr : Numbers r) (hd : (ofRectangle r precision).isDrawable = true) :
    (restoredBox precision r).crossesDateLine = r.crossesDateLine ∧
      (stored precision r.east < stored precision r.west ↔ r.crossesDateLine = true) := by
  obtain ⟨-, hf, -, hne⟩ := exists_restoredBox hd
  have hn := numbers_restoredBox hp hr
  obtain ⟨h1, h2⟩ := restored_lt_iff hp hr.east hr.west (value_ne_of_beq hn.east hn.west hne)
  have hb : r.crossesDateLine = true ↔ value r.east < value r.west :=
    decide_eq_true_iff.trans (lt_iff_value_lt hr.east hr.west)
  have hq : (restoredBox precision r).crossesDateLine = true ↔ value r.east < value r.west :=
    (decide_eq_true_iff.trans (lt_iff_value_lt hn.east hn.west)).trans h1
  refine ⟨Bool.eq_iff_iff.2 (hq.trans hb.symm), ?_⟩
  rw [hb, ← h2]
  exact lt_iff_value_lt (isNaN_of_isFinite hf.east) (isNaN_of_isFinite hf.west)

/-- A drawable extent and the box read back from it have their latitudes apart. -/
theorem south_lt_north (hp : precision ≤ 15) (hr : Numbers r) (hd : (ofRectangle r precision).isDrawable = true)
    (hle : value r.south ≤ value r.north) :
    value (restoredBox precision r).south < value (restoredBox precision r).north ∧
      stored precision r.south < stored precision r.north := by
  obtain ⟨-, hf, hne, -⟩ := exists_restoredBox hd
  have hn := numbers_restoredBox hp hr
  have hv := value_ne_of_beq hn.north hn.south hne
  have hlt := lt_of_le_of_ne ((isMonotone_restored hp).value_le hr.south hr.north hle) hv.symm
  obtain ⟨h1, h2⟩ := restored_lt_iff hp hr.south hr.north hv.symm
  exact ⟨hlt, (lt_iff_value_lt (isNaN_of_isFinite hf.south) (isNaN_of_isFinite hf.north)).2 (h2.2 (h1.1 hlt))⟩

end GlobeDrag.Extent
