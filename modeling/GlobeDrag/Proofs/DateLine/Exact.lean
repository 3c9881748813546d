import GlobeDrag.Proofs.Binary64.Value
import GlobeDrag.Proofs.DateLine.Step

/-!
# Courses on doubles are exact

A course compares longitudes and does not compute with them. On doubles it therefore takes the same decisions as on their exact
values, and what is proven of exact longitudes holds for doubles.

Main statements: `Course.exact_step` and `Course.exact_run`.
-/

namespace GlobeDrag.DateLine

open Binary64 (value value_zero isFinite_zero isNaN_of_isFinite lt_iff_value_lt le_iff_value_le beq_iff_value_eq)

variable {x y z anchor longitude : Float} {c : Course Float}

/-- The side of a double is that of its value. -/
theorem Side.of_value (hx : x.isNaN = false) : Side.of (value x) = Side.of x := by
  have h1 := lt_iff_value_lt (isNaN_of_isFinite isFinite_zero) hx
  have h2 := lt_iff_value_lt hx (isNaN_of_isFinite isFinite_zero)
  rw [value_zero] at h1 h2
  simp only [Side.of, h1, h2]

/-- Headings are tracked on doubles as on their values. -/
theorem Heading.track_value (h : Heading) (hx : x.isNaN = false) (hy : y.isNaN = false) (hz : z.isNaN = false) :
    h.track (value x) (value y) (value z) = h.track x y z := by
  simp only [track, lt_iff_value_lt hx hy, lt_iff_value_lt hy hx, le_iff_value_le hz hy, le_iff_value_le hy hz]

namespace Course

/-- The course on the exact values of the longitudes. -/
def exact (c : Course Float) : Course ℚ :=
  ⟨c.last.map value, c.heading, c.crossing⟩

/-- A step on doubles is a step on their values. -/
theorem exact_step (ha : anchor.isNaN = false) (hc : ∀ last ∈ c.last, last.isNaN = false) (hl : longitude.isNaN = false) :
    (c.step anchor longitude).exact = c.exact.step (value anchor) (value longitude) := by
  cases hlast : c.last with
  | none =>
    have he : c.exact.last = none := by rw [exact, hlast]; rfl
    rw [step_of_none hlast, step_of_none he]
    rfl
  | some last =>
    have he : c.exact.last = some (value last) := by rw [exact, hlast]; rfl
    have hn := hc last hlast
    have h0 := beq_iff_value_eq hn (isNaN_of_isFinite isFinite_zero)
    rw [value_zero] at h0
    cases hb : last == 0 with
    | true =>
      rw [step_of_zero hlast hb, step_of_zero he (beq_iff_eq.2 (h0.1 hb))]
      rfl
    | false =>
      have hb' : (value last == 0) = false := by
        rw [beq_eq_false_iff_ne]
        intro h
        rw [h0.2 h] at hb
        cases hb
      have hk : Move.classify (value last) (value longitude) (value anchor) = Move.classify last longitude anchor := by
        rw [Move.classify, Side.of_value hn, Side.of_value hl, Side.of_value ha, Move.classify]
      have hh : ∀ kind, c.exact.headingAfter (value anchor) (value last) (value longitude) kind =
          c.headingAfter anchor last longitude kind := by
        intro kind
        cases kind with
        | sameSide => exact Heading.track_value c.heading hn hl ha
        | _ => rfl
      rw [step_of_move hlast hb, step_of_move he hb', hk, hh]
      rfl

/-- A run on doubles is a run on their values. -/
theorem exact_run (ha : anchor.isNaN = false) (hc : ∀ last ∈ c.last, last.isNaN = false) {longitudes : List Float}
    (hl : ∀ l ∈ longitudes, l.isNaN = false) :
    (c.run anchor longitudes).exact = c.exact.run (value anchor) (longitudes.map value) := by
  induction longitudes generalizing c with
  | nil => rfl
  | cons l rest ih =>
    have h := hl l List.mem_cons_self
    have hs : ∀ last ∈ (c.step anchor l).last, last.isNaN = false := by
      intro last hlast
      rw [last_step, Option.mem_some_iff] at hlast
      rwa [← hlast]
    rw [run_cons, ih hs fun l' hl' => hl l' (List.mem_cons_of_mem _ hl'), exact_step ha hc h, List.map_cons, run_cons]

end Course

end GlobeDrag.DateLine
