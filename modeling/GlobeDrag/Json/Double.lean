import GlobeDrag.Decimal.Plain

/-!
# Doubles as JSON numbers

The fewest digits that read back, with a point in every number. Of two equally near decimals the one with an even last digit is
written. Numbers that JSON cannot write are `null`.
-/

namespace GlobeDrag.Json

open Decimal (Scaled)

/-- The powers of ten of the first digit that are written without an exponent. -/
def positionalMagnitudes : Int × Int := (-5, 15)

/-- A decimal with a power of ten behind it: one digit in front of the point, which is left out when no digit follows. -/
def scientificText (d : Scaled) : List Char :=
  let e := d.magnitude
  let tail := d.digits.drop 1
  let mantissa := d.digits.take 1 ++ if tail.isEmpty then [] else '.' :: tail
  mantissa ++ 'e' :: (if e < 0 then '-' else '+') :: Nat.toDigits 10 e.natAbs

/-- A decimal as a JSON number. -/
def decimalText (d : Scaled) : List Char :=
  let (low, high) := positionalMagnitudes
  if low ≤ d.magnitude ∧ d.magnitude ≤ high then
    if 0 ≤ d.exponent then d.positional ++ ['.', '0'] else d.positional
  else scientificText d

/-- A double as JSON. -/
def doubleText (x : Float) : String :=
  match x.toModel.unpack with
  | .notANumber => "null"
  | .infinity _ => "null"
  | .zero s => Decimal.signText s ++ "0.0"
  | .finite s m e _ => Decimal.signText s ++ String.ofList (decimalText (Decimal.shortest .even m e))

end GlobeDrag.Json
