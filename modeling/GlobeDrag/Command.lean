import GlobeDrag.Settings.Text
import GlobeDrag.Trace

/-!
# Commands

What the program does once its arguments are understood: it prints the box of a single drag, or it replays a recorded one. Files are
given by their texts, so that a command is a function.
-/

namespace GlobeDrag

/-- What to do. -/
inductive Action where
  /-- Print the box spanned by dragging from one point straight to another. -/
  | rect (start finish : Point)
  /-- Replay the drag recorded in a file, with the report on one line if `compact`. -/
  | replay (file : String) (compact : Bool)

/-- An action and the file with the settings for it. -/
structure Command where
  settings : Option String
  action : Action

/-- Why a command failed. -/
inductive CommandError where
  | settings (error : SettingsError)
  | point (error : PointError)
  /-- The file of a trace has no text. -/
  | traceFile (path : String) (fault : Fault)
  | json (error : Json.Error)

/-- The wording of an error, without the place of one in a JSON text. -/
def CommandError.message : CommandError → String
  | .settings e => e.message
  | .point e => e.message
  | .traceFile path fault => s!"Failed to read trace {path}: " ++ fault.message
  | .json e => "JSON error: " ++ e.message

/-- The wording of an error. -/
def CommandError.text : CommandError → String
  | .json e => "JSON error: " ++ e.text
  | e => e.message

/-! ## Commands -/

namespace Action

/-- The box of a drag from `start` straight to `finish`, if there is one, and the extent committed. -/
def rectWork (settings : Settings) (start finish : Point) : Work CommandError Unit := do
  let pressed := (Session.start settings).press (some start)
  Work.note pressed.notes
  let moved := pressed.session.move (some finish)
  Work.note moved.notes
  let released := moved.session.release
  Work.note released.notes
  if let some box := moved.answer then Work.print [box.text, "\n"]
  Work.print [(released.answer.getD .empty).toJson, "\n"]

/-- A report as text, on one line or over lines. -/
def reportText (compact : Bool) (report : Report) : String :=
  if compact then report.tree.compact else report.tree.pretty 0

/-- The report of replaying the drag recorded in a file. -/
def replayWork (files : Files) (settings : Settings) (file : String) (compact : Bool) : Work CommandError Unit := do
  let text ← Work.ofExcept ((files file).mapError (.traceFile file))
  let trace ← Work.ofExcept ((Trace.ofJson text).mapError .json)
  Work.note [.replaying file trace.moves.length]
  let report ← (trace.replayWork settings).mapError .point
  Work.print [reportText compact report, "\n"]

/-- Does what is to be done. -/
def work (files : Files) (settings : Settings) : Action → Work CommandError Unit
  | rect start finish => rectWork settings start finish
  | replay file compact => replayWork files settings file compact

/-- The files that may be read. -/
def paths : Action → List String
  | rect .. => []
  | replay file _ => [file]

end Action

namespace Command

/-- Reads the settings for a command. -/
def settingsWork (files : Files) (c : Command) : Work CommandError Settings :=
  (Settings.loadWork files c.settings).mapError .settings

/-- Carries out a command. The settings are read first. -/
def work (files : Files) (c : Command) : Work CommandError Unit := do
  let settings ← c.settingsWork files
  Work.note [.configured settings.epsilon settings.precision]
  c.action.work files settings

/-- The files that a command may read. -/
def paths (c : Command) : List String :=
  c.settings.toList ++ c.action.paths

end Command

end GlobeDrag
