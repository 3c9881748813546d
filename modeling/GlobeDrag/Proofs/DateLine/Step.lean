import GlobeDrag.DateLine.Bounds
import GlobeDrag.DateLine.Course
import Mathlib

/-!
# Steps of a course

The step of a course by the kind of its move, a run as a sequence of steps, and what sides and bounds are among ordered numbers.

Main statements: `step_of_none`, `step_of_zero` and `step_of_move` (a step, case by case) and `run_concat` (the last step of a run).
-/

namespace GlobeDrag.DateLine

/-! ## Steps -/

namespace Course

variable {α : Type} [OfNat α 0] [BEq α] [LT α] [LE α] [DecidableLT α] [DecidableLE α] {anchor last longitude : α} {c : Course α}

/-- Before the first move there is nothing to compare with. -/
theorem step_of_none (h : c.last = none) : c.step anchor longitude = ⟨some longitude, c.heading, false⟩ := by
  rw [step, h]

/-- After a longitude of zero there is nothing to compare with. -/
theorem step_of_zero (h : c.last = some last) (h0 : (last == 0) = true) :
    c.step anchor longitude = ⟨some longitude, c.heading, false⟩ := by
  have hm : c.move? anchor longitude = none := by
    rw [move?, h]
    exact if_pos h0
  rw [step, h, hm]

/-- From any other longitude the kind of the move decides. -/
theorem step_of_move (h : c.last = some last) (h0 : (last == 0) = false) :
    c.step anchor longitude = ⟨some longitude, c.headingAfter anchor last longitude (.classify last longitude anchor),
      c.crossingAfter (.classify last longitude anchor)⟩ := by
  have hm : c.move? anchor longitude = some (.classify last longitude anchor) := by
    rw [move?, h]
    exact if_neg (by rw [h0]; exact Bool.false_ne_true)
  rw [step, h, hm]

/-- A step remembers the longitude. -/
@[simp] theorem last_step (anchor : α) (c : Course α) (longitude : α) : (c.step anchor longitude).last = some longitude := by
  unfold step
  split <;> rfl

@[simp] theorem run_cons (anchor : α) (c : Course α) (longitude : α) (rest : List α) :
    c.run anchor (longitude :: rest) = (c.step anchor longitude).run anchor rest := rfl

/-- A run ends with a step. -/
theorem run_concat (anchor : α) (c : Course α) (longitudes : List α) (longitude : α) :
    c.run anchor (longitudes ++ [longitude]) = (c.run anchor longitudes).step anchor longitude := by
  rw [run, run, List.foldl_append]
  rfl

end Course

/-! ## Ordered numbers -/

variable {K : Type} [LinearOrder K] {x : K}

@[simp] theorem lesser_eq_min (x y : K) : lesser x y = min x y := by
  rw [lesser, if_pos (le_refl y), min_def]

@[simp] theorem greater_eq_max (x y : K) : greater x y = max x y := by
  rw [greater, if_pos (le_refl y), max_comm, max_def]

theorem Side.of_pos [Zero K] (h : 0 < x) : Side.of x = some .east := if_pos h

theorem Side.of_neg [Zero K] (h : x < 0) : Side.of x = some .west := by
  rw [Side.of, if_neg h.asymm, if_pos h]

@[simp] theorem Side.of_zero [Zero K] : Side.of (0 : K) = none := by
  rw [Side.of, if_neg (lt_irrefl 0), if_neg (lt_irrefl 0)]

end GlobeDrag.DateLine
