import GlobeDrag.Command.Arguments

/-!
# The program

Reads the files that a command may need, carries the command out, and prints what it leads to.
-/

namespace GlobeDrag

/-- The text of a file. -/
def readText (path : String) : IO (Except Fault String) := do
  try
    let octets ← IO.FS.readBinFile path
    match String.fromUTF8? octets with
    | some text => return .ok text
    | none => return .error .notText
  catch
    | .noFileOrDirectory .. => return .error .missing
    | .inappropriateType .. => return .error .directory
    | e => return .error (.other (toString e))

end GlobeDrag

open GlobeDrag

/-- Runs the program with the words of its command line. -/
def main (args : List String) : IO UInt32 := do
  match Command.ofArguments args with
  | .error refusal =>
    let o := refusal.outcome
    IO.print o.output
    IO.eprint o.error
    return o.code.toUInt32
  | .ok (command, loudness) =>
    let texts ← command.paths.mapM fun path => do return (path, ← readText path)
    let o := command.outcome fun path => (texts.lookup path).getD (.error .missing)
    for n in o.notes do
      if n.level.loudness ≤ loudness then IO.eprintln n.line
    IO.print o.output
    IO.eprint o.error
    return o.code.toUInt32
