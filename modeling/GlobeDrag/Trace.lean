import GlobeDrag.Json.Geometry
import GlobeDrag.Session
import GlobeDrag.Work

/-!
# Recorded drags

A trace holds where the button went down and the pointer positions after that, in degrees; a move without a position is one off the
globe. `Trace.replayWork` runs a trace through a session and reports the boxes that were drawn and the extent that was committed.
-/

namespace GlobeDrag

open Json (Format Shape Tree)
open Json.Shape (required)

/-- A recorded position in degrees. -/
structure TracePoint where
  lat : Float
  lon : Float

/-- A recorded drag. -/
structure Trace where
  anchor : TracePoint
  moves : List (Option TracePoint)

/-! ## Reading -/

/-- How a recorded position is written. -/
def TracePoint.shape : Shape (List (String × Float)) TracePoint :=
  .uniform "TracePoint" ["lat", "lon"] .double fun values => do
    return ⟨← required values "lat", ← required values "lon"⟩

namespace Trace

/-- A trace while it is read. -/
structure Draft where
  anchor : Option TracePoint := none
  moves : Option (List (Option TracePoint)) := none

/-- How a trace is written. Moves may be left out. -/
def shape : Shape Draft Trace where
  title := "Trace"
  fields := [
    { name := "anchor"
      isTaken := fun d => d.anchor.isSome
      format := TracePoint.shape.format.map fun p d => { d with anchor := some p } },
    { name := "moves"
      isTaken := fun d => d.moves.isSome
      format := TracePoint.shape.format.optional.list.map fun ms d => { d with moves := some ms } }]
  blank := {}
  build d :=
    match d.anchor with
    | none => .error "anchor"
    | some p => .ok ⟨p, d.moves.getD []⟩

/-- Reads a trace. -/
def ofJson (text : String) : Except Json.Error Trace :=
  shape.format.document text

end Trace

/-! ## Replaying -/

/-- One box that was drawn during a replay. -/
structure Frame where
  /-- The index of the move in the trace. -/
  step : Nat
  crossing : Bool
  extent : Extent

/-- What a replay produced. -/
structure Report where
  drawn : List Frame
  committed : Extent

/-- The point at a recorded position. -/
def TracePoint.point (p : TracePoint) : Except PointError Point :=
  Point.ofDegrees p.lat p.lon

namespace Trace

/-- The point of a move; none of a move off the globe. -/
def movePoint : Option TracePoint → Except PointError (Option Point)
  | none => .ok none
  | some p => p.point.map some

/-- The anchor and the moves of a trace as points. The first position out of range is the error. -/
def points (t : Trace) : Except PointError (Point × List (Option Point)) := do
  let anchor ← t.anchor.point
  let moves ← t.moves.mapM movePoint
  return (anchor, moves)

/-- The frames that the events of the move with the given index draw. -/
def frames (step : Nat) (events : List Event) : List Frame :=
  events.filterMap fun
    | .drawn box extent => some ⟨step, box.crossesDateLine, extent⟩
    | _ => none

/-- What is noted of the move with the given index besides what the session notes. -/
def missing (step : Nat) (point : Option Point) : List Note :=
  if point.isNone then [.offGlobe step] else []

/-- The notes of moves and of the steps that they led to, in their order. -/
def moveNotes (moves : List (Option Point)) (steps : List (Session.Step Session.Answer)) : List Note :=
  (moves.zip steps).zipIdx.flatMap fun ((point, s), i) => missing i point ++ s.notes

/-- Runs points through a session: a press at the anchor, the moves, and the release. -/
def replayPoints (settings : Settings) (anchor : Point) (moves : List (Option Point)) : Work PointError Report := do
  let pressed := (Session.start settings).press (some anchor)
  Work.note pressed.notes
  let steps := pressed.session.run (moves.map .move)
  Work.note (moveNotes moves steps)
  let released := (steps.getLast?.elim pressed.session (·.session)).release
  Work.note released.notes
  let drawn := steps.zipIdx.flatMap fun (s, i) => frames i s.events
  Work.note [.replayed drawn.length]
  return ⟨drawn, released.answer.getD .empty⟩

/-- Replays a trace. All its positions are made points before the session begins. -/
def replayWork (settings : Settings) (t : Trace) : Work PointError Report := do
  let (anchor, moves) ← Work.ofExcept t.points
  replayPoints settings anchor moves

/-- The report of replaying a trace, with the notes on it. -/
def replay (settings : Settings) (t : Trace) : Except PointError (Report × List Note) :=
  (t.replayWork settings).outcome

end Trace

/-! ## Reports -/

/-- A frame as JSON. -/
def Frame.tree (f : Frame) : Tree :=
  .object [("step", .count f.step), ("crossing_date_line", .flag f.crossing), ("bbox", f.extent.tree)]

/-- A report as JSON. -/
def Report.tree (r : Report) : Tree :=
  .object [("drawn", .list (r.drawn.map Frame.tree)), ("committed", r.committed.tree)]

end GlobeDrag
