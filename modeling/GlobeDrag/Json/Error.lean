import GlobeDrag.Json.Double
import GlobeDrag.Text.Quoted

/-!
# Errors of reading JSON

Why a text could not be read: it ends too early, it is not JSON, or it is JSON that does not describe the value asked for. While a text is
read the place of a failure is what was left of the text; in the end it is a line and a column.
-/

namespace GlobeDrag.Json

/-- What was being read when the text ended. -/
inductive Unfinished where
  | value
  | list
  | object
  | string
deriving DecidableEq

/-- What was found in the place of another kind of value. -/
inductive Found where
  | null
  | boolean (b : Bool)
  | integer (n : Int)
  | double (x : Float)
  | string (s : String)
  | list
  | object

/-- Why a text could not be read. -/
inductive Cause where
  /-- The text ends in the middle of something. -/
  | unfinished (what : Unfinished)
  /-- No value begins here. -/
  | noValue
  /-- A word other than `null`, `true` and `false`. -/
  | unknownWord
  /-- A number that breaks the rules of writing numbers. -/
  | badNumber
  /-- A number too large for a double. -/
  | numberTooLarge
  /-- No colon after a key. -/
  | noColon
  /-- Neither a comma nor the end of a list after an element. -/
  | noListSeparator
  /-- Neither a comma nor the end of an object after a member. -/
  | noObjectSeparator
  /-- A comma before the end of a list or object. -/
  | trailingComma
  /-- Something after the end of the value, or more elements than a record has fields. -/
  | trailingText
  /-- A key that is not a string. -/
  | keyNotString
  /-- An unknown escape in a string. -/
  | badEscape
  /-- The first half of a surrogate pair without an escape after it. -/
  | halfEscape
  /-- Half of a surrogate pair without its counterpart. -/
  | loneSurrogate
  /-- A control character in a string. -/
  | controlCharacter
  /-- A value of another kind than the one expected. -/
  | wrongType (found : Found) (expected : String)
  /-- A record without a field that it must have. -/
  | missingField (name : String)
  /-- A record with two members of one name. -/
  | duplicateField (name : String)
  /-- A list with fewer elements than the record written by it has fields. -/
  | wrongLength (length : Nat) (record : String) (fields : Nat)

/-- The wording of what was being read. -/
def Unfinished.text : Unfinished → String
  | .value => "a value"
  | .list => "a list"
  | .object => "an object"
  | .string => "a string"

/-- The wording of what was found. -/
def Found.text : Found → String
  | .null => "null"
  | .boolean b => s!"boolean `{b}`"
  | .integer n => s!"integer `{n}`"
  | .double x => s!"floating point `{doubleText x}`"
  | .string s => "string " ++ Text.quote s
  | .list => "sequence"
  | .object => "map"

namespace Cause

/-- The wording of a cause. -/
def message : Cause → String
  | unfinished what => s!"EOF while parsing {what.text}"
  | noValue => "expected value"
  | unknownWord => "expected ident"
  | badNumber => "invalid number"
  | numberTooLarge => "number out of range"
  | noColon => "expected `:`"
  | noListSeparator => "expected `,` or `]`"
  | noObjectSeparator => "expected `,` or `\x7d`"
  | trailingComma => "trailing comma"
  | trailingText => "trailing characters"
  | keyNotString => "key must be a string"
  | badEscape => "invalid escape"
  | halfEscape => "unexpected end of hex escape"
  | loneSurrogate => "lone leading surrogate in hex escape"
  | controlCharacter => "control character (\\u0000-\\u001F) found while parsing a string"
  | wrongType found expected => s!"invalid type: {found.text}, expected {expected}"
  | missingField name => s!"missing field `{name}`"
  | duplicateField name => s!"duplicate field `{name}`"
  | wrongLength length record fields =>
    s!"invalid length {length}, expected struct {record} with {fields} element" ++ if fields = 1 then "" else "s"

end Cause

/-! ## Places -/

/-- A line and a column. -/
structure Place where
  line : Nat
  column : Nat

/-- The octets of a text. -/
def octets (text : List Char) : List UInt8 :=
  text.flatMap String.utf8EncodeChar

/-- The place behind the given octets. Lines are counted from one, and the column is the number of octets on the last one. -/
def Place.behind (before : List UInt8) : Place where
  line := before.count 10 + 1
  column := (before.reverse.takeWhile (· ≠ 10)).length

/-- The wording of a place. -/
def Place.text (p : Place) : String :=
  s!" at line {p.line} column {p.column}"

/-! ## Errors -/

/-- A failure while a text is read: its cause, what was left of the text, and how many octets of that were looked at. -/
structure Failure where
  cause : Cause
  rest : List Char
  ahead : Nat

namespace Failure

/-- A failure in front of the text that is left. -/
def reached (cause : Cause) (rest : List Char) : Failure :=
  ⟨cause, rest, 0⟩

/-- A failure at the first octet of the text that is left. -/
def seen (cause : Cause) (rest : List Char) : Failure :=
  ⟨cause, rest, 1⟩

/-- The place of a failure in a text. -/
def place (text : List Char) (f : Failure) : Place :=
  .behind (octets (text.take (text.length - f.rest.length)) ++ (octets f.rest).take f.ahead)

end Failure

/-- Why and where a text could not be read. -/
structure Error where
  cause : Cause
  place : Place

/-- A failure as an error of the whole text. -/
def Failure.error (text : String) (f : Failure) : Error :=
  ⟨f.cause, f.place text.toList⟩

namespace Error

/-- The wording of an error without its place. -/
def message (e : Error) : String :=
  e.cause.message

/-- The wording of an error: the cause and its place. -/
def text (e : Error) : String :=
  e.message ++ e.place.text

/-- The three kinds of errors. -/
inductive Category where
  /-- The text ends too early. -/
  | early
  /-- The text is not JSON. -/
  | form
  /-- The text is JSON of the wrong content. -/
  | content
deriving DecidableEq

/-- The kind of an error. -/
def category (e : Error) : Category :=
  match e.cause with
  | .unfinished _ => .early
  | .wrongType .. | .missingField _ | .duplicateField _ | .wrongLength .. => .content
  | _ => .form

end Error

end GlobeDrag.Json
