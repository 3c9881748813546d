import GlobeDrag.Binary64
import GlobeDrag.Decimal.Literal

/-!
# Angles

Degrees, radians, longitudes folded into one turn, and values rounded to decimal places.
-/

namespace GlobeDrag.Angle

/-- Half a turn in radians. -/
def halfTurn : Float := 3.141592653589793

/-- A full turn in radians. -/
def fullTurn : Float := 6.283185307179586

/-- Degrees in radians. -/
def toRadians (degrees : Float) : Float :=
  degrees * halfTurn / 180

/-- Radians in degrees. -/
def toDegrees (radians : Float) : Float :=
  radians * 180 / halfTurn

/-- A longitude brought into the half-open turn from `-halfTurn`, which is excluded, to `halfTurn`. What is there already, or is
not finite, is left as it is. The last test is for sums that rounding carries onto the excluded end. -/
def normalize (longitude : Float) : Float :=
  if !longitude.isFinite then longitude
  else if -halfTurn < longitude ∧ longitude ≤ halfTurn then longitude
  else
    let folded := Binary64.modulo (longitude + halfTurn) fullTurn - halfTurn
    if folded ≤ -halfTurn then folded + fullTurn else folded

/-- The power of ten for a number of decimal places, infinite where it exceeds the doubles. Numbers of places have 32 bits and a
sign: those in the upper half are negative and stand for tens, hundreds and so on. -/
def powerOfTen (places : Nat) : Float :=
  if 2 * places < Decimal.wordLimit then Binary64.timesPower 1 10 places
  else 1 / Binary64.timesPower 1 10 (Decimal.wordLimit - places)

/-- A finite value rounded to a number of decimal places: scaled up, rounded to a whole number and scaled down. -/
def roundTo (value : Float) (places : Nat) : Float :=
  if !value.isFinite then value
  else
    let factor := powerOfTen places
    Binary64.round (value * factor) / factor

end GlobeDrag.Angle
