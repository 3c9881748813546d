import GlobeDrag.Main
import GlobeDrag.Proofs.Binary64.Nearest
import GlobeDrag.Proofs.Binary64.Unpacked
import GlobeDrag.Proofs.Binary64.Packing
import GlobeDrag.Proofs.Binary64.Value
import GlobeDrag.Proofs.Binary64.Successor
import GlobeDrag.Proofs.Binary64.Arithmetic
import GlobeDrag.Proofs.Binary64.Whole
import GlobeDrag.Proofs.Angle
import GlobeDrag.Proofs.DateLine.Following
import GlobeDrag.Proofs.DateLine.FineDrag
import GlobeDrag.Proofs.DateLine.Exact
import GlobeDrag.Proofs.DateLine.Meridian
import GlobeDrag.Proofs.Rectangle.Widen
import GlobeDrag.Proofs.Rectangle.Spanning
import GlobeDrag.Proofs.DateLine.Across
import GlobeDrag.Proofs.Tracker
import GlobeDrag.Proofs.Binary64.Difference
import GlobeDrag.Proofs.Extent
import GlobeDrag.Proofs.Extent.Width
import GlobeDrag.Proofs.Session
import GlobeDrag.Proofs.Trace
import GlobeDrag.Proofs.Tracker.History
import GlobeDrag.Proofs.Session.Lifecycle
import GlobeDrag.Proofs.Session.Events
import GlobeDrag.Proofs.Rectangle.Reach
import GlobeDrag.Proofs.Rectangle.Mirror
import GlobeDrag.Proofs.Extent.Reach
import GlobeDrag.Proofs.Session.Reach
import GlobeDrag.Proofs.Tracker.Mirror
import GlobeDrag.Proofs.Session.Ignored
import GlobeDrag.Proofs.Trace.Replay
import GlobeDrag.Proofs.Work
import GlobeDrag.Proofs.Json.Tree
import GlobeDrag.Proofs.Trace.Report
import GlobeDrag.Proofs.Command
import GlobeDrag.Proofs.Binary64.Drift
import GlobeDrag.Proofs.Extent.Degrees
import GlobeDrag.Proofs.Extent.Again
import GlobeDrag.Proofs.Session.Typed
import GlobeDrag.Proofs.Decimal.Shortest
import GlobeDrag.Proofs.Json.Number
import GlobeDrag.Proofs.Json.Record
import GlobeDrag.Proofs.Json.Scale
import GlobeDrag.Proofs.Json.Double
import GlobeDrag.Proofs.Extent.Json
import GlobeDrag.Proofs.DateLine.Heading
import GlobeDrag.Proofs.Tracker.Log
import GlobeDrag.Proofs.Tracker.Repeat
import GlobeDrag.Proofs.Rectangle.Overflow
import GlobeDrag.Proofs.Tracker.WithoutBox
import GlobeDrag.Proofs.DateLine.Arc
import GlobeDrag.Proofs.Rectangle.Contains
import GlobeDrag.Proofs.Tracker.Contains
import GlobeDrag.Proofs.Rectangle.Guard
import GlobeDrag.Proofs.Rectangle.Width
import GlobeDrag.Proofs.Tracker.Width
import GlobeDrag.Proofs.Angle.Fold
import GlobeDrag.Proofs.Point.Degrees
import GlobeDrag.Proofs.Decimal.Scientific
import GlobeDrag.Proofs.Text.Blank
import GlobeDrag.Proofs.Decimal.Literal
import GlobeDrag.Proofs.Point.Text
import GlobeDrag.Proofs.Settings.Text
import GlobeDrag.Proofs.Rectangle.Climb
import GlobeDrag.Proofs.Json.Value
import GlobeDrag.Proofs.Json.Skip
import GlobeDrag.Proofs.Json.Reading
import GlobeDrag.Proofs.Json.Meaning
import GlobeDrag.Proofs.Json.Shape
import GlobeDrag.Proofs.Json.Recast
import GlobeDrag.Proofs.Trace.Json
