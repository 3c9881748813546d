import GlobeDrag.DateLine.Course
import GlobeDrag.Note

/-!
# Tracking a drag

A tracker turns pointer positions, each with the fixed point where the drag began, into the box to draw. It remembers the drag
in progress and the last box it gave. `Tracker.update` takes in a position, `Tracker.finish` ends the drag.
-/

namespace GlobeDrag

open DateLine (Course)

/-! ## Drags -/

/-- A drag in progress: where it began and what was seen of its longitudes. -/
structure Drag where
  anchor : Point
  course : Course Float

namespace Drag

/-- The drag before its first move. -/
def start (anchor : Point) : Drag := ⟨anchor, .start⟩

/-- The drag after the pointer moved to `current`. -/
def step (d : Drag) (current : Point) : Drag :=
  { d with course := d.course.step d.anchor.longitude current.longitude }

/-- The kind of the move to `current`. -/
def move? (d : Drag) (current : Point) : Option DateLine.Move :=
  d.course.move? d.anchor.longitude current.longitude

/-- The box between the anchor and `current`, wrapping as the course says. -/
def box (d : Drag) (current : Point) (epsilon : Float) : Rectangle :=
  .spanning d.anchor current d.course.crossing epsilon

/-- What there is to note about a step from one drag to the next, the pointer being at `current`. -/
def changes (before after : Drag) (current : Point) : List Note :=
  if after.course.crossing ≠ before.course.crossing then
    [.crossingChanged after.course.crossing after.course.heading current.longitudeDegrees]
  else if after.course.heading ≠ before.course.heading then
    [.headingChanged before.course.heading after.course.heading]
  else []

end Drag

/-! ## Trackers -/

/-- What is remembered between the positions of a drag. -/
structure Tracker where
  /-- The angle in radians below which a span is widened. -/
  epsilon : Float
  /-- The drag in progress. -/
  drag : Option Drag := none
  /-- The last box of the drag in progress. -/
  lastBox : Option Rectangle := none

namespace Tracker

/-- The outcome of a pointer position. -/
structure Update where
  tracker : Tracker
  /-- The box to draw, if there is one. -/
  box : Option Rectangle
  notes : List Note

/-- The tracker as it stands before a position of the drag from `anchor`: a drag that began elsewhere is dropped with its
box. -/
def facing (t : Tracker) (anchor : Point) : Drag × Option Rectangle × List Note :=
  match t.drag with
  | none => (.start anchor, t.lastBox, [])
  | some d => if d.anchor == anchor then (d, t.lastBox, []) else (.start anchor, none, [.anchorChanged anchor])

/-- Takes in a position of the drag from `anchor`. Coordinates that are not finite change nothing. A box that is not finite is
not given out. -/
def update (t : Tracker) (anchor current : Point) : Update :=
  if !anchor.isFinite || !current.isFinite then ⟨t, none, [.positionIgnored anchor current]⟩
  else
    let anchor := anchor.normalize
    let current := current.normalize
    let (before, kept, opening) := t.facing anchor
    let after := before.step current
    let notes := opening ++ before.changes after current
    let box := after.box current t.epsilon
    if box.isFinite then ⟨{ t with drag := some after, lastBox := some box }, some box, notes⟩
    else ⟨{ t with drag := some after, lastBox := kept }, none, notes⟩

/-- A tracker without a drag. -/
def reset (t : Tracker) : Tracker :=
  { t with drag := none, lastBox := none }

/-- Ends the drag: its last box is the outcome. -/
def finish (t : Tracker) : Update :=
  ⟨t.reset, t.lastBox, t.lastBox.toList.map .dragFinished⟩

/-- Whether a drag is in progress. -/
def isActive (t : Tracker) : Bool :=
  t.drag.isSome

/-- Whether the box of the drag in progress wraps over the date line. -/
def crossing (t : Tracker) : Bool :=
  t.drag.any (·.course.crossing)

/-- Where the drag in progress is heading. -/
def heading (t : Tracker) : DateLine.Heading :=
  t.drag.elim .unset (·.course.heading)

/-! ## Runs -/

/-- A call on a tracker. -/
inductive Input where
  | update (anchor current : Point)
  | finish
  | reset

/-- The tracker after a call. -/
def handle (t : Tracker) : Input → Tracker
  | .update anchor current => (t.update anchor current).tracker
  | .finish => t.finish.tracker
  | .reset => t.reset

/-- The tracker that a sequence of calls leaves. -/
def after (t : Tracker) (inputs : List Input) : Tracker :=
  inputs.foldl handle t

end Tracker

end GlobeDrag
