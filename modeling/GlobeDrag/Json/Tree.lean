import GlobeDrag.Json.Double

/-!
# Writing JSON

The JSON that the library writes, as trees, and their two forms: on one line without blanks, and spread over lines with an
indentation of two blanks. Keys are names without characters that would need an escape.
-/

namespace GlobeDrag.Json

/-- What the library writes as JSON. -/
inductive Tree where
  | flag (b : Bool)
  | count (n : Nat)
  | double (x : Float)
  | list (elements : List Tree)
  | object (members : List (String × Tree))

namespace Tree

/-! ## On one line -/

mutual

/-- A tree without blanks. -/
def compact : Tree → String
  | flag b => if b then "true" else "false"
  | count n => toString n
  | double x => doubleText x
  | list es => "[" ++ ",".intercalate (compactElements es) ++ "]"
  | object ms => "\x7b" ++ ",".intercalate (compactMembers ms) ++ "\x7d"

/-- The elements of a list without blanks. -/
def compactElements : List Tree → List String
  | [] => []
  | e :: es => e.compact :: compactElements es

/-- The members of an object without blanks. -/
def compactMembers : List (String × Tree) → List String
  | [] => []
  | (k, t) :: ms => ("\"" ++ k ++ "\":" ++ t.compact) :: compactMembers ms

end

/-! ## Over lines -/

/-- A new line with the indentation of a depth. -/
def newline (depth : Nat) : String :=
  "\n" ++ String.ofList (List.replicate (2 * depth) ' ')

/-- Items between brackets, each on a line of its own one step deeper; nothing between the brackets if there are none. -/
def enclose (opening closing : String) (depth : Nat) (items : List String) : String :=
  if items.isEmpty then opening ++ closing
  else opening ++ newline (depth + 1) ++ ("," ++ newline (depth + 1)).intercalate items ++ newline depth ++ closing

mutual

/-- A tree over lines, standing at the given depth. -/
def pretty (depth : Nat) : Tree → String
  | flag b => if b then "true" else "false"
  | count n => toString n
  | double x => doubleText x
  | list es => enclose "[" "]" depth (prettyElements (depth + 1) es)
  | object ms => enclose "\x7b" "\x7d" depth (prettyMembers (depth + 1) ms)

/-- The elements of a list at a depth. -/
def prettyElements (depth : Nat) : List Tree → List String
  | [] => []
  | e :: es => e.pretty depth :: prettyElements depth es

/-- The members of an object at a depth. -/
def prettyMembers (depth : Nat) : List (String × Tree) → List String
  | [] => []
  | (k, t) :: ms => ("\"" ++ k ++ "\": " ++ t.pretty depth) :: prettyMembers depth ms

end

end Tree

end GlobeDrag.Json
