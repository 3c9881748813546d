import GlobeDrag.Decimal.Shortest

/-!
# Plain decimal text

Doubles written without an exponent: `Decimal.plain` with the fewest digits that read back, `Decimal.fixed` with a given number of
decimal places.
-/

namespace GlobeDrag

namespace Decimal

open Float.Model.UnpackedFloat (Sign)

/-- A minus sign for a negative number. -/
def signText : Sign → String
  | .positive => ""
  | .negative => "-"

/-- Digits with a point before the last `places` of them, at least one digit being in front of the point. -/
def pointBefore (places : Nat) (ds : List Char) : List Char :=
  let padded := List.replicate (places + 1 - ds.length) '0' ++ ds
  let whole := padded.take (padded.length - places)
  let fraction := padded.drop (padded.length - places)
  if fraction.isEmpty then whole else whole ++ '.' :: fraction

/-- A decimal written out with zeros where its exponent asks for them. -/
def Scaled.positional (d : Scaled) : List Char :=
  if 0 ≤ d.exponent then d.digits ++ List.replicate d.exponent.toNat '0'
  else pointBefore (-d.exponent).toNat d.digits

/-- The whole number nearest to `num / den`, a half going to the even one. -/
def roundQuotient (num den : Nat) : Nat :=
  let q := num / den
  match compare (2 * (num % den)) den with
  | .lt => q
  | .gt => q + 1
  | .eq => q + q % 2

/-- A double that is not finite, or the digits of one that is, with its sign. -/
def spell (digits : Nat → Int → List Char) (x : Float) : String :=
  match x.toModel.unpack with
  | .notANumber => "NaN"
  | .infinity s => signText s ++ "inf"
  | .zero s => signText s ++ String.ofList (digits 0 0)
  | .finite s m e _ => signText s ++ String.ofList (digits m e)

/-- The fewest digits that read back, never with an exponent, a whole number without a point. Of two equally near decimals the
larger one is written. -/
def plain (x : Float) : String :=
  spell (fun m e => if m = 0 then ['0'] else (shortest .up m e).positional) x

/-- The exact value rounded to a number of decimal places, a half going to the even last digit. -/
def fixed (places : Nat) (x : Float) : String :=
  spell (fun m e =>
    pointBefore places (Nat.toDigits 10 (roundQuotient ((m * Nat.pow 10 places) <<< e.toNat) (1 <<< (-e).toNat)))) x

end Decimal

end GlobeDrag
