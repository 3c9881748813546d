import GlobeDrag.Text.Blank
import GlobeDrag.Text.Quoted

/-!
# Places and errors in INI texts

Where in a text the reading has come to, and why a text could not be read.
-/

namespace GlobeDrag.Ini

/-! ## Places in a text -/

/-- A place in a text: the characters from the current one on, and the line and column of the current one. -/
structure Cursor where
  rest : List Char
  line : Nat
  column : Nat

namespace Cursor

/-- The place at the beginning of `rest`, when the character before it is at the given line and column. A line break is at
column zero of the line that it begins; the end of the text is where its last character is. -/
def reach (line column : Nat) : List Char → Cursor
  | [] => ⟨[], line, column⟩
  | c :: r => if c = '\n' then ⟨c :: r, line + 1, 0⟩ else ⟨c :: r, line, column + 1⟩

/-- The first place of a text. -/
def ofText (text : String) : Cursor :=
  reach 0 0 text.toList

/-- The place after the current character. -/
def next (c : Cursor) : Cursor :=
  reach c.line c.column c.rest.tail

/-- The current character; absent at the end of the text. -/
def current (c : Cursor) : Option Char :=
  c.rest.head?

/-- Reaching a place does not touch what is left there. -/
@[simp]
theorem rest_reach (line column : Nat) (r : List Char) : (reach line column r).rest = r := by
  cases r with
  | nil => rfl
  | cons c r =>
    rw [reach]
    split <;> rfl

/-- A step takes one character from what is left. -/
@[simp]
theorem rest_next (c : Cursor) : c.next.rest = c.rest.tail :=
  rest_reach ..

end Cursor

/-! ## Errors -/

/-- Why a text could not be read. -/
inductive Cause where
  /-- A remark that does not begin its line. -/
  | inlineRemark
  /-- A value without a key in front. -/
  | missingKey
  /-- The text ends before one of the characters that could end what was begun; `none` stands for the end of the text. -/
  | unclosed (ends : List (Option Char))
  /-- A backslash inside the code of a character that is not followed by a line break. -/
  | brokenCode (found : Option Char)
  /-- The code of a character is not a hexadecimal number or not one of a character. -/
  | unknownCode

/-- Why and where a text could not be read. -/
structure Error where
  cause : Cause
  place : Cursor

/-- A character that may be absent, as error messages show it. -/
def optionText : Option Char → String
  | none => "None"
  | some c => "Some(" ++ Text.quoteChar c ++ ")"

/-- The wording of a cause. -/
def Cause.message : Cause → String
  | inlineRemark => "doesn't support inline comment"
  | missingKey => "missing key"
  | unclosed ends => "expecting \"[" ++ ", ".intercalate (ends.map optionText) ++ "]\" but found EOF."
  | brokenCode found => "expecting \"\\\\n\" but found \"" ++ optionText found ++ "\"."
  | unknownCode => "unknown character in \\xHH form"

/-- The wording of an error: line and column, counted from one, and the cause. -/
def Error.message (e : Error) : String :=
  s!"{e.place.line + 1}:{e.place.column + 1} " ++ e.cause.message

end GlobeDrag.Ini
