import GlobeDrag.DateLine.Heading
import GlobeDrag.Rectangle

/-!
# Notes for the log

What the library reports about its work while it is at it. A note says what happened; its level, wording and fields are
functions of it.
-/

namespace GlobeDrag

open DateLine (Heading)

/-- Something worth a line in the log. -/
inductive Note where
  /-- A pointer position was passed over because a coordinate is not finite. -/
  | positionIgnored (anchor current : Point)
  /-- A drag was replaced by one with another anchor. -/
  | anchorChanged (anchor : Point)
  /-- The box began or ceased to wrap; the longitude of the pointer is in degrees. -/
  | crossingChanged (crossing : Bool) (heading : Heading) (longitude : Float)
  /-- The heading changed while the box did not begin or cease to wrap. -/
  | headingChanged (before after : Heading)
  /-- A drag that produced a box was ended. -/
  | dragFinished (box : Rectangle)
  /-- The button went down where there is no globe. -/
  | pressIgnored
  /-- A session began a drag. -/
  | dragStarted (anchor : Point)
  /-- A session ended a drag with a box. -/
  | boxCommitted (box : Rectangle)
  /-- A session ended a drag without a box. -/
  | endedWithoutBox
  /-- A session gave up a drag. -/
  | dragCancelled
  /-- A setting of unknown name was passed over. -/
  | unknownSetting (key : String)
  /-- Settings were read from a file. -/
  | settingsLoaded (path : String) (epsilon : Float) (precision : Nat)
  /-- The settings of a command are known. -/
  | configured (epsilon : Float) (precision : Nat)
  /-- A recorded drag is about to be replayed. -/
  | replaying (file : String) (moves : Nat)
  /-- A recorded move has no position. -/
  | offGlobe (step : Nat)
  /-- A recorded drag was replayed. -/
  | replayed (frames : Nat)

namespace Note

/-- How much a note matters, the least first. -/
inductive Level where
  | trace
  | debug
  | info
  | warn
deriving DecidableEq

/-- The name of a level. -/
def Level.name : Level → String
  | .trace => "TRACE"
  | .debug => "DEBUG"
  | .info => "INFO"
  | .warn => "WARN"

/-- How many times loudness must be asked for before the notes of a level are shown. -/
def Level.loudness : Level → Nat
  | .warn => 0
  | .info => 1
  | .debug => 2
  | .trace => 3

/-- The value of a field of a note. -/
inductive Value where
  | text (s : String)
  | flag (b : Bool)
  | count (n : Nat)
  | double (x : Float)

/-- A value as the log shows it. -/
def Value.shown : Value → String
  | .text s => s
  | .flag b => toString b
  | .count n => toString n
  | .double x => Decimal.plain x

/-- How much a note matters. -/
def level : Note → Level
  | positionIgnored .. | headingChanged .. | pressIgnored | offGlobe .. => .trace
  | anchorChanged .. | crossingChanged .. | dragFinished .. | dragStarted .. | dragCancelled | settingsLoaded ..
  | configured .. | replayed .. => .debug
  | boxCommitted .. | endedWithoutBox | replaying .. => .info
  | unknownSetting .. => .warn

/-- The wording of a note. -/
def message : Note → String
  | positionIgnored .. => "Ignoring non-finite pointer position"
  | anchorChanged .. => "Anchor changed, starting a new drag"
  | crossingChanged .. => "Date line crossing changed"
  | headingChanged .. => "Drag direction changed"
  | dragFinished .. => "Drag finished"
  | pressIgnored => "Press off the globe ignored"
  | dragStarted .. => "Bounding box drag started"
  | boxCommitted .. => "Bounding box committed"
  | endedWithoutBox => "Drag ended without a bounding box"
  | dragCancelled => "Bounding box drag cancelled"
  | unknownSetting .. => "Ignoring unknown [bbox] setting"
  | settingsLoaded .. => "Loaded tracker config"
  | configured .. => "Configuration loaded"
  | replaying .. => "Replaying trace"
  | offGlobe .. => "Pointer off the globe"
  | replayed .. => "Replay finished"

/-- The named values of a note. -/
def fields : Note → List (String × Value)
  | positionIgnored anchor current => [("anchor", .text anchor.text), ("current", .text current.text)]
  | anchorChanged anchor => [("anchor", .text anchor.text)]
  | crossingChanged crossing heading longitude =>
    [("crossing", .flag crossing), ("direction", .text heading.name), ("lon", .double longitude)]
  | headingChanged before after => [("from", .text before.name), ("to", .text after.name)]
  | dragFinished box => [("rect", .text box.text)]
  | pressIgnored => []
  | dragStarted anchor => [("anchor", .text anchor.text)]
  | boxCommitted box => [("bbox", .text box.text), ("crossing", .flag box.crossesDateLine)]
  | endedWithoutBox => []
  | dragCancelled => []
  | unknownSetting key => [("key", .text key)]
  | settingsLoaded path epsilon precision =>
    [("path", .text path), ("epsilon", .double epsilon), ("precision", .count precision)]
  | configured epsilon precision => [("epsilon", .double epsilon), ("precision", .count precision)]
  | replaying file moves => [("file", .text file), ("moves", .count moves)]
  | offGlobe step => [("step", .count step)]
  | replayed frames => [("frames", .count frames)]

/-- A note as a line of the log. -/
def line (n : Note) : String :=
  let fields := n.fields.map fun (name, value) => s!" {name}={value.shown}"
  s!"{n.level.name} {n.message}" ++ String.join fields

end Note

end GlobeDrag
