import GlobeDrag.Extent
import GlobeDrag.Files
import GlobeDrag.Ini

/-!
# Settings

What can be tuned: the angle below which a box is widened, and the decimal places of a stored extent.
-/

namespace GlobeDrag

/-- The settings of a drag. -/
structure Settings where
  /-- The angle in radians below which a span is widened. -/
  epsilon : Float := defaultEpsilon
  /-- The decimal places kept in degrees. -/
  precision : Nat := defaultPrecision

/-- The most decimal places that a double has to offer. -/
def maxPrecision : Nat := 15

/-- Why settings cannot be used. -/
inductive SettingsError where
  /-- The file that should hold them has no text. -/
  | file (path : String) (fault : Fault)
  /-- The text that should hold them cannot be read. -/
  | form (error : Ini.Error)
  /-- The value of a setting is not a number of its kind. -/
  | unreadable (key value : String)
  /-- The angle is not positive and finite. -/
  | epsilon (value : Float)
  /-- The decimal places exceed `maxPrecision`. -/
  | precision (value : Nat)

/-- The wording of an error. -/
def SettingsError.message : SettingsError → String
  | .file path fault => s!"Failed to read config file {path}: " ++ fault.message
  | .form error => "Invalid INI: " ++ error.message
  | .unreadable key value => s!"Invalid value for {key}: '{value}'"
  | .epsilon value => s!"epsilon must be a positive finite number, got {Decimal.plain value}"
  | .precision value => s!"precision must be at most {maxPrecision} decimal places, got {value}"

/-- Refuses settings that cannot be used; the angle is looked at first. -/
def Settings.validate (s : Settings) : Except SettingsError Unit :=
  if !s.epsilon.isFinite || s.epsilon ≤ 0 then .error (.epsilon s.epsilon)
  else if maxPrecision < s.precision then .error (.precision s.precision)
  else .ok ()

end GlobeDrag
