import GlobeDrag.Command

/-!
# Command lines

The words after the program's name and the command that they mean. Options come as `--name value` or `--name=value`, flags as
`--name` or as letters behind one dash, and `--` makes the words after it plain. The settings file and the loudness may be given
before and after the name of the action; of two settings files the one after it counts.
-/

namespace GlobeDrag.Command

/-! ## Words -/

/-- A word of a command line. -/
inductive Word where
  /-- Two dashes: the words after it are plain. -/
  | separator
  /-- A name behind two dashes, and what is attached to it by an equals sign. -/
  | long (name : String) (value : Option String)
  /-- Letters behind one dash. -/
  | short (letters : List Char)
  /-- Anything else; a dash alone is plain. -/
  | plain (text : String)

/-- What a word is. -/
def Word.ofString (s : String) : Word :=
  match s.toList with
  | ['-', '-'] => .separator
  | '-' :: '-' :: cs =>
    let name := String.ofList (cs.takeWhile (· ≠ '='))
    match cs.dropWhile (· ≠ '=') with
    | [] => .long name none
    | _ :: value => .long name (some (String.ofList value))
  | '-' :: c :: cs => .short (c :: cs)
  | _ => .plain s

/-! ## What may stand where -/

/-- The parts of a command line: what stands before the name of an action, and what stands after it. -/
inductive Part where
  | general
  | rect
  | replay
deriving DecidableEq

namespace Part

/-- The options of a part. -/
def options : Part → List String
  | general => ["config"]
  | rect => ["config", "from", "to"]
  | replay => ["config"]

/-- The flags of a part. -/
def flags : Part → List String
  | general => ["verbose", "help", "version"]
  | rect => ["verbose", "help"]
  | replay => ["verbose", "help", "compact"]

/-- How many plain words a part has. -/
def plainCount : Part → Nat
  | general => 0
  | rect => 0
  | replay => 1

end Part

/-- The flag that a letter stands for. -/
def flagOfLetter? : Char → Option String
  | 'v' => some "verbose"
  | 'h' => some "help"
  | 'V' => some "version"
  | _ => none

/-- Whether the value of an option may begin with a dash. -/
def mayBeginWithDash (option : String) : Bool :=
  option = "from" ∨ option = "to"

/-! ## Reading -/

/-- Why there is no command. -/
inductive Refusal where
  /-- The version is asked for. -/
  | version
  /-- Help is asked for. -/
  | help
  /-- A word has no meaning where it stands. -/
  | unexpected (word : String)
  /-- An option, a flag or a plain word is given twice. -/
  | repeated (word : String)
  /-- An option has no value. -/
  | noValue (option : String)
  /-- The value of an option or a plain word is not of its kind. -/
  | badValue (word value : String)
  /-- Something that must be given is not. -/
  | absent (what : String)

/-- What was given in a part. -/
structure Given where
  values : List (String × String) := []
  flags : List String := []
  plain : List String := []

namespace Given

/-- Takes in an option with its value. A path must not be empty. -/
def addOption (part : Part) (g : Given) (name value : String) : Except Refusal Given :=
  if name ∉ part.options then .error (.unexpected s!"--{name}")
  else if (g.values.lookup name).isSome then .error (.repeated s!"--{name}")
  else if name = "config" ∧ value = "" then .error (.badValue s!"--{name}" value)
  else .ok { g with values := (name, value) :: g.values }

/-- Takes in a flag. Loudness may be given many times. -/
def addFlag (part : Part) (g : Given) (name : String) : Except Refusal Given :=
  if name ∉ part.flags then .error (.unexpected s!"--{name}")
  else if name = "version" then .error .version
  else if name = "help" then .error .help
  else if name ∈ g.flags ∧ name ≠ "verbose" then .error (.repeated s!"--{name}")
  else .ok { g with flags := name :: g.flags }

/-- Takes in the flag that a letter stands for. -/
def addLetter (part : Part) (g : Given) (letter : Char) : Except Refusal Given :=
  match flagOfLetter? letter with
  | some name => g.addFlag part name
  | none => .error (.unexpected s!"-{letter}")

/-- Takes in a plain word. -/
def addPlain (part : Part) (g : Given) (word : String) : Except Refusal Given :=
  if part.plainCount ≤ g.plain.length then .error (.unexpected word)
  else if word = "" then .error (.badValue "FILE" word)
  else .ok { g with plain := g.plain ++ [word] }

/-- Reads the words of a part. In front of the action reading ends at the first plain word, which is left. -/
def read (part : Part) (g : Given) : List String → Except Refusal (Given × List String)
  | [] => .ok (g, [])
  | w :: rest =>
    match Word.ofString w with
    | .separator => (rest.foldlM (addPlain part) g).map (·, [])
    | .plain p =>
      if part = .general then .ok (g, p :: rest)
      else do read part (← g.addPlain part p) rest
    | .short letters => do read part (← letters.foldlM (addLetter part) g) rest
    | .long name (some value) => do read part (← g.addOption part name value) rest
    | .long name none =>
      if name ∈ part.options then
        match rest with
        | [] => .error (.noValue s!"--{name}")
        | v :: rest =>
          match Word.ofString v, mayBeginWithDash name with
          | .plain _, _ => do read part (← g.addOption part name v) rest
          | _, true => do read part (← g.addOption part name v) rest
          | _, false => .error (.noValue s!"--{name}")
      else do read part (← g.addFlag part name) rest

/-- The point that an option gives. -/
def point (g : Given) (name : String) : Except Refusal Point :=
  match g.values.lookup name with
  | none => .error (.absent s!"--{name}")
  | some text => (Point.ofText text).mapError fun _ => .badValue s!"--{name}" text

/-- The action that a part after its name describes. -/
def action (part : Part) (g : Given) : Except Refusal Action :=
  match part with
  | .general => .error (.absent "COMMAND")
  | .rect => do return .rect (← g.point "from") (← g.point "to")
  | .replay =>
    match g.plain with
    | [] => .error (.absent "FILE")
    | file :: _ => .ok (.replay file ("compact" ∈ g.flags))

/-- How many times loudness is given. -/
def loudness (g : Given) : Nat :=
  g.flags.count "verbose"

end Given

/-- The part that the name of an action begins. -/
def partOfName? : String → Option Part
  | "rect" => some .rect
  | "replay" => some .replay
  | _ => none

/-- The command that the words of a command line mean, and how loud it is to be. -/
def ofArguments (args : List String) : Except Refusal (Command × Nat) := do
  let (general, rest) ← Given.read .general {} args
  match rest with
  | [] => throw (.absent "COMMAND")
  | name :: rest =>
    match partOfName? name with
    | none => throw (.unexpected name)
    | some part =>
      let (given, _) ← Given.read part {} rest
      let action ← given.action part
      let settings := (given.values.lookup "config").or (general.values.lookup "config")
      return (⟨settings, action⟩, general.loudness + given.loudness)

/-! ## Outcomes -/

/-- What the program prints and how it ends. -/
structure Outcome where
  code : Nat
  output : String := ""
  error : String := ""
  notes : List Note := []

/-- The name and version of the program. -/
def versionText : String := "globebox 0.1.0\n"

/-- How the program is used. -/
def usageText : String :=
  "Usage: globebox [--config PATH] [-v]... rect --from LAT,LON --to LAT,LON\n" ++
  "       globebox [--config PATH] [-v]... replay FILE [--compact]\n"

/-- The wording of a refusal. -/
def Refusal.message : Refusal → String
  | .version => "the version is asked for"
  | .help => "help is asked for"
  | .unexpected word => s!"unexpected argument '{word}'"
  | .repeated word => s!"the argument '{word}' cannot be used multiple times"
  | .noValue option => s!"a value is required for '{option}'"
  | .badValue word value => s!"invalid value '{value}' for '{word}'"
  | .absent what => s!"'{what}' must be given"

/-- What the program does with a refusal: what is asked for is printed, anything else is an error of usage. -/
def Refusal.outcome : Refusal → Outcome
  | .version => { code := 0, output := versionText }
  | .help => { code := 0, output := usageText }
  | r => { code := 2, error := s!"error: {r.message}\n\n" ++ usageText }

/-- What the program does with a command. -/
def outcome (files : Files) (c : Command) : Outcome :=
  let w := c.work files
  match w.result with
  | .ok () => { code := 0, output := w.output, notes := w.notes }
  | .error e => { code := 1, output := w.output, error := s!"Error: {e.text}\n", notes := w.notes }

end GlobeDrag.Command
