import GlobeDrag.Settings
import GlobeDrag.Tracker

/-!
# Sessions

The life of one drawing: armed, dragging, committed. Pointer positions come projected onto the globe; where the pointer is off
the globe there is none. Each operation gives the session after it, its answer, the events for whoever draws, and notes.

```text
armed ---press---> dragging ---release---> committed
  ^                    |                       |
  +-------cancel-------+                       |
  +------------------restart-------------------+
```
-/

namespace GlobeDrag

/-- Where a session is in its life. -/
inductive Phase where
  /-- Waiting for the button to go down on the globe. -/
  | armed
  /-- The button is held since it went down at `anchor`. -/
  | dragging (anchor : Point)
  /-- The button was released and the extent stands. -/
  | committed

/-- The name of a phase. -/
def Phase.name : Phase → String
  | armed => "armed"
  | dragging _ => "dragging"
  | committed => "committed"

/-- What whoever draws is told. -/
inductive Event where
  /-- A drag began. -/
  | begun (anchor : Point)
  /-- The box changed and is large enough to draw. -/
  | drawn (box : Rectangle) (extent : Extent)
  /-- The drag ended with this extent. -/
  | ended (extent : Extent)
  /-- The drag was given up. -/
  | cancelled

/-- One interactive drawing. -/
structure Session where
  settings : Settings
  tracker : Tracker
  phase : Phase
  extent : Extent

namespace Session

/-- What an operation leads to. -/
structure Step (α : Type) where
  session : Session
  answer : α
  events : List Event
  notes : List Note

/-- An armed session. -/
def start (settings : Settings) : Session where
  settings
  tracker := { epsilon := settings.epsilon }
  phase := .armed
  extent := .empty

/-- The session without a drag and an extent, waiting for the button. -/
def rearm (s : Session) : Session :=
  { s with tracker := s.tracker.reset, phase := .armed, extent := .empty }

/-- The button goes down. The answer is whether a drag began. -/
def press (s : Session) (point : Option Point) : Step Bool :=
  match s.phase with
  | .armed =>
    match point.filter Point.isFinite with
    | none => ⟨s, false, [], [.pressIgnored]⟩
    | some anchor => ⟨{ s.rearm with phase := .dragging anchor }, true, [.begun anchor], [.dragStarted anchor]⟩
  | _ => ⟨s, false, [], []⟩

/-- The pointer moves. The answer is the box, if there is one. -/
def move (s : Session) (point : Option Point) : Step (Option Rectangle) :=
  match s.phase, point with
  | .dragging anchor, some current =>
    let u := s.tracker.update anchor current
    match u.box with
    | none => ⟨{ s with tracker := u.tracker }, none, [], u.notes⟩
    | some box =>
      let extent := Extent.ofRectangle box s.settings.precision
      let events := if extent.isDrawable then [.drawn box extent] else []
      ⟨{ s with tracker := u.tracker, extent }, some box, events, u.notes⟩
  | _, _ => ⟨s, none, [], []⟩

/-- The button is released. The answer is the extent that stands from now on. -/
def release (s : Session) : Step (Option Extent) :=
  match s.phase with
  | .dragging _ =>
    let u := s.tracker.finish
    let outcome := match u.box with
      | some box => Note.boxCommitted box
      | none => .endedWithoutBox
    ⟨{ s with tracker := u.tracker, phase := .committed }, some s.extent, [.ended s.extent], u.notes ++ [outcome]⟩
  | _ => ⟨s, none, [], []⟩

/-- Gives up the drag in progress. -/
def cancel (s : Session) : Step Unit :=
  match s.phase with
  | .dragging _ => ⟨s.rearm, (), [.cancelled], [.dragCancelled]⟩
  | _ => ⟨s, (), [], []⟩

/-- Makes ready for a new drawing, giving up a drag in progress and forgetting the extent. -/
def restart (s : Session) : Step Unit :=
  let given := s.cancel
  { given with session := given.session.rearm }

/-- Whether the box in progress wraps over the date line. -/
def crossing (s : Session) : Bool :=
  s.tracker.crossing

/-! ## Runs -/

/-- An operation on a session. -/
inductive Input where
  | press (point : Option Point)
  | move (point : Option Point)
  | release
  | cancel
  | restart

/-- The answer of an operation. -/
inductive Answer where
  | pressed (began : Bool)
  | moved (box : Option Rectangle)
  | released (extent : Option Extent)
  | done

/-- The same step with its answer changed. -/
def Step.map {α β : Type} (f : α → β) (st : Step α) : Step β :=
  { st with answer := f st.answer }

/-- Carries out an operation. -/
def handle (s : Session) : Input → Step Answer
  | .press p => (s.press p).map .pressed
  | .move p => (s.move p).map .moved
  | .release => s.release.map .released
  | .cancel => s.cancel.map fun _ => .done
  | .restart => s.restart.map fun _ => .done

/-- The steps of a sequence of operations, each on the session that the one before left. -/
def run (s : Session) : List Input → List (Step Answer)
  | [] => []
  | i :: rest =>
    let st := s.handle i
    st :: st.session.run rest

/-- The session that a sequence of operations leaves. -/
def after (s : Session) (inputs : List Input) : Session :=
  inputs.foldl (fun s i => (s.handle i).session) s

end Session

end GlobeDrag
