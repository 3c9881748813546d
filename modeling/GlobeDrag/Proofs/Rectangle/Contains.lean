import GlobeDrag.Proofs.DateLine.Arc
import GlobeDrag.Proofs.Rectangle.Spanning

/-!
# Points in a box

A point lies in a box by its latitude and by its meridian, which must be met on the way from the western bound eastward to the eastern one.

Main statements: `contains_iff_arc` (what a box contains, and what the box with exchanged bounds contains) and `Spans.contains_corners`
(the box between two corners contains them).
-/

namespace GlobeDrag.Rectangle

open Angle Binary64 DateLine

variable {anchor anchor' current p : Point} {crossing : Bool} {r : Rectangle}

/-- The angle from the western bound eastward to the eastern one, without rounding. -/
def exactWidth (r : Rectangle) : ℚ :=
  arc (value fullTurn) (value r.east) (value r.west)

/-- The box with its eastern and western bound exchanged. -/
def exchanged (r : Rectangle) : Rectangle :=
  { r with east := r.west, west := r.east }

/-- A point lies in a box if its latitude and its longitude lie between the bounds. -/
theorem contains_iff (hs : r.south.isNaN = false) (hn : r.north.isNaN = false) (hp : p.latitude.isNaN = false) :
    r.contains p = true ↔ (r.south ≤ p.latitude ∧ p.latitude ≤ r.north) ∧ covers r.east r.west p.longitude = true := by
  have outside : (p.latitude < r.south || r.north < p.latitude) = true ↔ ¬(r.south ≤ p.latitude ∧ p.latitude ≤ r.north) := by
    rw [Bool.or_eq_true, decide_eq_true_iff, decide_eq_true_iff, lt_iff_value_lt hp hs, lt_iff_value_lt hn hp, le_iff_value_le hs hp,
      le_iff_value_le hp hn, not_and_or, not_le, not_le]
  rw [contains]
  split
  · next h => exact iff_of_false Bool.false_ne_true fun h' => outside.1 h h'.1
  · next h => exact (and_iff_right (not_not.1 fun h' => h (outside.2 h'))).symm

/-! ## The arc of a box -/

/-- The value of a longitude in the turn. -/
theorem mem_Ioc_of_inTurn {x : Float} (h : InTurn x) : value x ∈ Set.Ioc (-value halfTurn) (value halfTurn) :=
  ⟨h.lt_value, h.value_le⟩

/-- A box with bounds in the turn contains the points with latitudes between its bounds whose meridians are met on the way from the western
bound eastward to the eastern one. If it wraps, then with the bounds exchanged it is as wide as the rest of the turn, every point between
its latitudes is in one of the two boxes, and only those on the bounds are in both. -/
theorem contains_iff_arc (hr : r.isFinite = true) (te : InTurn r.east) (tw : InTurn r.west) :
    (∀ p : Point, p.isFinite = true → InTurn p.longitude →
      (r.contains p = true ↔ (r.south ≤ p.latitude ∧ p.latitude ≤ r.north) ∧
        IsMet (value fullTurn) (value r.west) r.exactWidth (value p.longitude))) ∧
    (r.east < r.west →
      r.exactWidth + r.exchanged.exactWidth = value fullTurn ∧
      ∀ p : Point, p.isFinite = true → InTurn p.longitude → r.south ≤ p.latitude ∧ p.latitude ≤ r.north →
        (r.contains p = true ∨ r.exchanged.contains p = true) ∧
        (r.contains p = true ∧ r.exchanged.contains p = true ↔
          (p.longitude == r.east) = true ∨ (p.longitude == r.west) = true)) := by
  obtain ⟨⟨⟨fn, fs⟩, fe⟩, fw⟩ : ((r.north.isFinite = true ∧ r.south.isFinite = true) ∧ r.east.isFinite = true) ∧
      r.west.isFinite = true := by
    simpa only [isFinite, Bool.and_eq_true] using hr
  have nn := isNaN_of_isFinite fn
  have ns := isNaN_of_isFinite fs
  have ne := isNaN_of_isFinite fe
  have nw := isNaN_of_isFinite fw
  refine ⟨?_, ?_⟩
  · intro p hp tp
    obtain ⟨flat, flon⟩ := isFinite_point hp
    rw [contains_iff ns nn (isNaN_of_isFinite flat), ← covers_value ne nw (isNaN_of_isFinite flon),
      covers_iff_isMet value_fullTurn (mem_Ioc_of_inTurn te) (mem_Ioc_of_inTurn tw) (mem_Ioc_of_inTurn tp)]
    rfl
  · intro wraps
    have lt := (lt_iff_value_lt ne nw).1 wraps
    refine ⟨arc_add_arc lt, ?_⟩
    intro p hp tp between
    obtain ⟨flat, flon⟩ := isFinite_point hp
    have nlat := isNaN_of_isFinite flat
    have nlon := isNaN_of_isFinite flon
    have inside (box : Rectangle) (south : box.south = r.south) (north : box.north = r.north) :
        box.contains p = true ↔ covers box.east box.west p.longitude = true := by
      rw [contains_iff (south ▸ ns) (north ▸ nn) nlat, south, north]
      exact and_iff_right between
    rw [inside r rfl rfl, inside r.exchanged rfl rfl, beq_iff_value_eq nlon ne, beq_iff_value_eq nlon nw, ← covers_both_iff lt,
      covers_value ne nw nlon, covers_value nw ne nlon]
    refine ⟨?_, Iff.rfl⟩
    have either := covers_or_covers_exchanged lt (value p.longitude)
    rwa [covers_value ne nw nlon, covers_value nw ne nlon] at either

/-- A box over the date line contains the date line, which lies on its arc, and the box with exchanged bounds contains the prime
meridian. -/
theorem contains_iff_arc_date_line :
    let r : Rectangle := ⟨0.5, -0.5, -3, 3⟩
    (r.isFinite = true ∧ InTurn r.east ∧ InTurn r.west ∧ r.east < r.west) ∧
      IsMet (value fullTurn) (value r.west) r.exactWidth (value halfTurn) ∧
      r.exactWidth + r.exchanged.exactWidth = value fullTurn ∧ r.contains ⟨0, 0⟩ = false ∧ r.exchanged.contains ⟨0, 0⟩ = true := by
  intro r
  have finite : r.isFinite = true := by decide
  have east : InTurn r.east := ⟨by decide, by decide +kernel, by decide +kernel⟩
  have west : InTurn r.west := ⟨by decide, by decide +kernel, by decide +kernel⟩
  have line : InTurn halfTurn := ⟨by decide, by decide +kernel, by decide +kernel⟩
  have meridian : InTurn 0 := ⟨by decide, by decide +kernel, by decide +kernel⟩
  have wraps : r.east < r.west := by decide +kernel
  obtain ⟨member, complement⟩ := contains_iff_arc finite east west
  obtain ⟨whole, rest⟩ := complement wraps
  have beyond : r.contains ⟨0, 0⟩ = false := by decide +kernel
  obtain ⟨either, -⟩ := rest ⟨0, 0⟩ (by decide) meridian (by decide +kernel)
  refine ⟨⟨finite, east, west, wraps⟩, ?_, whole, beyond, either.resolve_left ?_⟩
  · exact ((member ⟨0, halfTurn⟩ (by decide) line).1 (by decide +kernel)).2
  · rw [beyond]
    exact Bool.false_ne_true

/-! ## Corners -/

namespace Spans

/-- The corners may change places. -/
theorem symm (h : Spans anchor current crossing r) : Spans current anchor crossing r :=
  { h with
    south_eq := by rw [h.south_eq, min_comm]
    le_north := by
      rw [max_comm]
      exact h.le_north
    west_eq := by rw [h.west_eq, min_comm, max_comm]
    le_east := by
      rw [min_comm, max_comm]
      exact h.le_east }

/-- The sign of a zero in a corner does not matter. -/
theorem congr (h : Spans anchor current crossing r) (lat : value anchor.latitude = value anchor'.latitude)
    (lon : value anchor.longitude = value anchor'.longitude) : Spans anchor' current crossing r := by
  obtain ⟨south, west, north, east, h1, h2, h3, h4⟩ := h
  rw [lat] at h1 h2
  rw [lon] at h3 h4
  exact ⟨south, west, north, east, h1, h2, h3, h4⟩

/-- A box that wraps as it is marked contains the corner where it begins. -/
theorem contains_anchor (h : Spans anchor current crossing r) (order : r.crossesDateLine = crossing) (ha : anchor.isFinite = true) :
    r.contains anchor = true := by
  obtain ⟨flat, flon⟩ := isFinite_point ha
  have nlat := isNaN_of_isFinite flat
  have nlon := isNaN_of_isFinite flon
  have ns := isNaN_of_isFinite h.isFinite_south
  have nw := isNaN_of_isFinite h.isFinite_west
  have south : value r.south ≤ value anchor.latitude := h.south_eq.trans_le (min_le_left _ _)
  have north : value anchor.latitude ≤ value r.north := (le_max_left _ _).trans h.le_north
  have hwest := h.west_eq
  have heast := h.le_east
  have wraps : value r.east < value r.west ↔ crossing = true := by
    rw [← lt_iff_value_lt h.isNaN_east nw, ← order, crossesDateLine, decide_eq_true_iff]
  rw [contains_iff ns h.isNaN_north nlat, le_iff_value_le ns nlat, le_iff_value_le nlat h.isNaN_north,
    ← covers_value h.isNaN_east nw nlon]
  refine ⟨⟨south, north⟩, ?_⟩
  cases crossing with
  | true =>
    simp only [if_true] at hwest heast
    rw [covers_of_lt (wraps.2 rfl), hwest]
    rcases le_total (value current.longitude) (value anchor.longitude) with begins | ends
    · exact Or.inl (max_eq_left begins).le
    · right
      rwa [min_eq_left ends] at heast
  | false =>
    simp only [Bool.false_eq_true, if_false] at hwest heast
    rw [covers_of_not_lt fun lt => Bool.false_ne_true (wraps.1 lt), hwest]
    exact ⟨min_le_left _ _, (le_max_left _ _).trans heast⟩

/-- It contains both corners. -/
theorem contains_corners (h : Spans anchor current crossing r) (order : r.crossesDateLine = crossing) (ha : anchor.isFinite = true)
    (hc : current.isFinite = true) : r.contains anchor = true ∧ r.contains current = true :=
  ⟨h.contains_anchor order ha, h.symm.contains_anchor order hc⟩

end Spans

end GlobeDrag.Rectangle
