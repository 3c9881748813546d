/-!
# Files

What reading a file comes to, for the parts of the library that are given the contents of files and not the files themselves.
-/

namespace GlobeDrag

/-- Why a file has no text. -/
inductive Fault where
  /-- There is no such file. -/
  | missing
  /-- The path leads to a directory. -/
  | directory
  /-- The contents are not UTF-8. -/
  | notText
  /-- Any other reason, in words. -/
  | other (reason : String)

/-- The wording of a fault. -/
def Fault.message : Fault → String
  | .missing => "No such file or directory (os error 2)"
  | .directory => "Is a directory (os error 21)"
  | .notText => "stream did not contain valid UTF-8"
  | .other reason => reason

/-- The texts of the files that a command may read, by path. -/
abbrev Files := String → Except Fault String

end GlobeDrag
