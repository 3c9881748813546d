import GlobeDrag.Angle
import GlobeDrag.Decimal.Plain
import GlobeDrag.Text.Blank

/-!
# Points on the globe

A point is held in radians. Degrees come in at the edges: from a pair of numbers (`Point.ofDegrees`) or from a written pair
(`Point.ofText`), and there alone the ranges are checked.
-/

namespace GlobeDrag

/-- A point on the globe, in radians: the latitude counts northward, the longitude eastward. -/
structure Point where
  latitude : Float
  longitude : Float
deriving BEq

/-- Why no point could be made. -/
inductive PointError where
  /-- The latitude in degrees is outside -90 to 90 or is not a number. -/
  | latitude (degrees : Float)
  /-- The longitude in degrees is outside -180 to 180 or is not a number. -/
  | longitude (degrees : Float)
  /-- The text is not two numbers separated by a comma. -/
  | unreadable (text : String)

/-- The wording of an error. -/
def PointError.message : PointError → String
  | .latitude d => s!"Invalid latitude: {Decimal.plain d} (expected -90 to 90 degrees)"
  | .longitude d => s!"Invalid longitude: {Decimal.plain d} (expected -180 to 180 degrees)"
  | .unreadable t => s!"Invalid point '{t}': expected 'lat,lon' in degrees"

namespace Point

/-- The longitude in radians of one given in degrees. Both ends of the range lie on the date line, which belongs to the east. -/
def longitudeOfDegrees (degrees : Float) : Float :=
  if degrees == 180 || degrees == -180 then Angle.halfTurn else Angle.toRadians degrees

/-- The point with the given degrees. The latitude is checked first. -/
def ofDegrees (lat lon : Float) : Except PointError Point :=
  if ¬(-90 ≤ lat ∧ lat ≤ 90) then .error (.latitude lat)
  else if ¬(-180 ≤ lon ∧ lon ≤ 180) then .error (.longitude lon)
  else .ok ⟨Angle.toRadians lat, longitudeOfDegrees lon⟩

/-- The texts before and after the first comma. -/
def splitAtComma (cs : List Char) : Option (List Char × List Char) :=
  match cs.dropWhile (· ≠ ',') with
  | [] => none
  | _ :: after => some (cs.takeWhile (· ≠ ','), after)

/-- The two numbers of a written pair, blanks around each being ignored. -/
def degreesOfText? (text : String) : Option (Float × Float) := do
  let (lat, lon) ← splitAtComma text.toList
  let lat ← Decimal.doubleOfChars? (Text.trim lat)
  let lon ← Decimal.doubleOfChars? (Text.trim lon)
  return (lat, lon)

/-- Reads `lat,lon` in degrees. -/
def ofText (text : String) : Except PointError Point :=
  match degreesOfText? text with
  | none => .error (.unreadable text)
  | some (lat, lon) => ofDegrees lat lon

/-- The latitude in degrees. -/
def latitudeDegrees (p : Point) : Float :=
  Angle.toDegrees p.latitude

/-- The longitude in degrees. -/
def longitudeDegrees (p : Point) : Float :=
  Angle.toDegrees p.longitude

/-- Whether both coordinates are finite. -/
def isFinite (p : Point) : Bool :=
  p.latitude.isFinite && p.longitude.isFinite

/-- The same point with its longitude folded into one turn. -/
def normalize (p : Point) : Point :=
  { p with longitude := Angle.normalize p.longitude }

/-- Degrees with four decimal places, as in `51.5000,-0.1200`. -/
def text (p : Point) : String :=
  Decimal.fixed 4 p.latitudeDegrees ++ "," ++ Decimal.fixed 4 p.longitudeDegrees

end Point

end GlobeDrag
