/-!
# Number literals

The written numbers that points and settings accept. A `Literal` is the written form taken apart; `Literal.ofChars?` reads one
and `Literal.value` is the double nearest to it. `wholeOfChars?` reads a whole number of at most 32 bits.
-/

namespace GlobeDrag.Decimal

/-- The value of decimal digits. -/
def ofDigits (ds : List Char) : Nat :=
  ds.foldl (fun n c => 10 * n + (c.toNat - '0'.toNat)) 0

/-- An optional sign in front, and whether it is a minus. -/
def splitSign : List Char → Bool × List Char
  | '-' :: r => (true, r)
  | '+' :: r => (false, r)
  | r => (false, r)

/-- What a literal says about the size of the number. -/
inductive Literal.Size where
  | infinite
  | notANumber
  /-- The digits before and after the point, and the written power of ten. -/
  | digits (whole fraction : List Char) (exponent : Int)
deriving DecidableEq

/-- A number as written. -/
structure Literal where
  negative : Bool
  size : Literal.Size
deriving DecidableEq

namespace Literal

/-- The power of ten behind the digits: absent, or a letter `e`, an optional sign and at least one digit. -/
def exponent? : List Char → Option Int
  | [] => some 0
  | c :: r =>
    if c = 'e' ∨ c = 'E' then
      let (negative, ds) := splitSign r
      if ds ≠ [] ∧ ds.all Char.isDigit then
        some (if negative then -(ofDigits ds : Int) else ofDigits ds)
      else none
    else none

/-- The names of the numbers that digits cannot write, in any letter case. -/
def named? (cs : List Char) : Option Size :=
  match String.ofList (cs.map Char.toLower) with
  | "inf" | "infinity" => some .infinite
  | "nan" => some .notANumber
  | _ => none

/-- Digits with an optional point among them or at an end, at least one digit in all, and an optional power of ten. -/
def digits? (cs : List Char) : Option Size :=
  let whole := cs.takeWhile Char.isDigit
  let (fraction, rest) :=
    match cs.dropWhile Char.isDigit with
    | '.' :: r => (r.takeWhile Char.isDigit, r.dropWhile Char.isDigit)
    | r => ([], r)
  if whole = [] ∧ fraction = [] then none
  else (exponent? rest).map (.digits whole fraction)

/-- Reads a literal: an optional sign, then a name or digits. -/
def ofChars? (cs : List Char) : Option Literal :=
  let (negative, body) := splitSign cs
  ((named? body).or (digits? body)).map (⟨negative, ·⟩)

/-- The double nearest to `n * 10 ^ e`. -/
def scientific (n : Nat) (e : Int) : Float :=
  Float.ofScientific n (e < 0) e.natAbs

/-- The double that a size stands for: the fraction digits are counted into the power of ten. -/
def Size.value : Size → Float
  | .infinite => 1 / 0
  | .notANumber => 0 / 0
  | .digits whole fraction e => scientific (ofDigits (whole ++ fraction)) (e - fraction.length)

/-- The double that a literal stands for. -/
def value (l : Literal) : Float :=
  if l.negative then -l.size.value else l.size.value

end Literal

/-- Reads a double from a text that is a literal and nothing else. -/
def doubleOfChars? (cs : List Char) : Option Float :=
  (Literal.ofChars? cs).map Literal.value

/-- The values that 32 bits hold. -/
def wordLimit : Nat := 0x100000000

/-- Reads a whole number below `wordLimit`: digits behind an optional plus sign. -/
def wholeOfChars? (cs : List Char) : Option Nat :=
  let ds := match cs with
    | '+' :: r => r
    | r => r
  if ds ≠ [] ∧ ds.all Char.isDigit ∧ ofDigits ds < wordLimit then some (ofDigits ds) else none

end GlobeDrag.Decimal
