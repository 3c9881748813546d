import GlobeDrag.Settings
import GlobeDrag.Work

/-!
# Settings from texts

Settings stand in the section `bbox` of an INI text. Entries are taken in their order, so that a later one overrides an earlier one,
but an entry that cannot be read is an error even if it would be overridden. Names that are not known are noted and passed over; the
notes made before an error stay.
-/

namespace GlobeDrag.Settings

/-- The section that holds the settings. -/
def sectionName : String := "bbox"

/-- The names of the settings. -/
def names : List String := ["epsilon", "precision"]

/-- Takes in an entry, a name with its value. One of unknown name is noted and passed over. -/
def set (s : Settings) (entry : String × String) : Work SettingsError Settings :=
  let (name, value) := entry
  let chars := Text.trim value.toList
  if name = "epsilon" then
    match Decimal.doubleOfChars? chars with
    | some epsilon => pure { s with epsilon }
    | none => .ofExcept (.error (.unreadable name value))
  else if name = "precision" then
    match Decimal.wholeOfChars? chars with
    | some precision => pure { s with precision }
    | none => .ofExcept (.error (.unreadable name value))
  else do
    Work.note [.unknownSetting name]
    return s

/-- The settings that entries lead to, starting from the defaults. They are checked in the end. -/
def entriesWork (entries : List (String × String)) : Work SettingsError Settings := do
  let s ← entries.foldlM set {}
  Work.ofExcept s.validate
  return s

/-- The settings of the items of a text. Without the section they are the defaults. -/
def itemsWork (items : List Ini.Item) : Work SettingsError Settings :=
  match Ini.settings? sectionName items with
  | none => pure {}
  | some entries => entriesWork entries

/-- The settings of a text. -/
def textWork (text : String) : Work SettingsError Settings := do
  let items ← Work.ofExcept ((Ini.read text).mapError .form)
  itemsWork items

/-- The settings of a file. -/
def fileWork (files : Files) (path : String) : Work SettingsError Settings := do
  let text ← Work.ofExcept ((files path).mapError (.file path))
  let s ← textWork text
  Work.note [.settingsLoaded path s.epsilon s.precision]
  return s

/-- The settings of a file that may not be named; without a name they are the defaults. -/
def loadWork (files : Files) : Option String → Work SettingsError Settings
  | none => pure {}
  | some path => fileWork files path

/-- The settings of a text, with the notes on it. -/
def ofText (text : String) : Except SettingsError (Settings × List Note) :=
  (textWork text).outcome

/-- The settings of a file that may not be named, with the notes on it. -/
def load (files : Files) (path : Option String) : Except SettingsError (Settings × List Note) :=
  (loadWork files path).outcome

end GlobeDrag.Settings
