import GlobeDrag.Text.Shapeless

/-!
# Quoted texts

Texts and characters as error messages show them: between quotes, with the quote itself, the backslash, control characters and
characters without a shape escaped.
-/

namespace GlobeDrag.Text

/-- The lower-case hexadecimal digits of a number. -/
def hexDigits (n : Nat) : List Char :=
  Nat.toDigits 16 n

/-- A character in a quoted text, where `quote` is the quote in use. -/
def escape (quote c : Char) : List Char :=
  if c = quote ∨ c = '\\' then ['\\', c]
  else if c = '\x00' then ['\\', '0']
  else if c = '\t' then ['\\', 't']
  else if c = '\r' then ['\\', 'r']
  else if c = '\n' then ['\\', 'n']
  else if c.toNat < 0x20 ∨ 0x7e < c.toNat ∧ (c.toNat = 0x7f ∨ isShapeless c) then
    '\\' :: 'u' :: '\x7b' :: hexDigits c.toNat ++ ['\x7d']
  else [c]

/-- A text between double quotes. -/
def quote (s : String) : String :=
  String.ofList ('"' :: s.toList.flatMap (escape '"') ++ ['"'])

/-- A character between single quotes. -/
def quoteChar (c : Char) : String :=
  String.ofList ('\'' :: escape '\'' c ++ ['\''])

end GlobeDrag.Text
