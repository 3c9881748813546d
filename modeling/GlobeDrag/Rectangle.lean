import GlobeDrag.DateLine.Bounds
import GlobeDrag.Point

/-!
# Boxes on the globe

A box is held by its four bounds in radians. A box that wraps over the date line has its eastern bound below its western one.
`Rectangle.spanning` makes the box between two corners and widens it where it is thinner than a given angle.
-/

namespace GlobeDrag

/-- The smallest angle left as it is unless settings say otherwise, about 0.6 metres. -/
def defaultEpsilon : Float := 1e-7

/-- A box on the globe: four bounds in radians. -/
structure Rectangle where
  north : Float
  south : Float
  east : Float
  west : Float
deriving BEq

namespace Rectangle

/-! ## Widening -/

/-- The first double from `high` upward whose distance from `low` is no longer below `target`. The climb ends because there
are only so many doubles above `high`. -/
def climb (low target high : Float) : Float :=
  if high - low < target then
    match _h : Binary64.successor? high with
    | some next => climb low target next
    | none => high
  else high
termination_by Binary64.headroom high
decreasing_by
  have := Binary64.headroom_successor? _h
  omega

/-- An upper bound pushed up by twice `epsilon`, and further while rounding leaves the span short of that. -/
def widen (low high epsilon : Float) : Float :=
  let target := 2 * epsilon
  climb low target (high + target)

/-- The box between two corners. East and west are placed as `crossing` says, and a span below `epsilon` is widened on its
northern or eastern side. The width of a box that wraps is measured over the date line. -/
def spanning (anchor current : Point) (crossing : Bool) (epsilon : Float) : Rectangle :=
  let (east, west) := DateLine.bounds crossing anchor.longitude current.longitude
  let south := DateLine.lesser anchor.latitude current.latitude
  let north := DateLine.greater anchor.latitude current.latitude
  let wrap := if crossing then Angle.fullTurn else 0
  { north := if north - south < epsilon then widen south north epsilon else north
    south
    east := if east + wrap - west < epsilon then widen (west - wrap) east epsilon else east
    west }

/-! ## Measures -/

/-- Whether the box wraps over the date line. -/
def crossesDateLine (r : Rectangle) : Bool :=
  r.east < r.west

/-- The angle from the western bound eastward to the eastern one. -/
def width (r : Rectangle) : Float :=
  if r.crossesDateLine then r.east - r.west + Angle.fullTurn else r.east - r.west

/-- The angle from the southern bound to the northern one. -/
def height (r : Rectangle) : Float :=
  r.north - r.south

/-- Whether all bounds are finite. -/
def isFinite (r : Rectangle) : Bool :=
  r.north.isFinite && r.south.isFinite && r.east.isFinite && r.west.isFinite

/-- Whether a point lies in the box, its bounds included. -/
def contains (r : Rectangle) (p : Point) : Bool :=
  if p.latitude < r.south || r.north < p.latitude then false
  else DateLine.covers r.east r.west p.longitude

/-- The box with its bounds in degrees. -/
def degrees (r : Rectangle) : Rectangle :=
  ⟨Angle.toDegrees r.north, Angle.toDegrees r.south, Angle.toDegrees r.east, Angle.toDegrees r.west⟩

/-- The bounds in degrees with four decimal places, and a remark on a box that wraps. -/
def text (r : Rectangle) : String :=
  let d := r.degrees
  let remark := if r.crossesDateLine then " (date line)" else ""
  s!"N{Decimal.fixed 4 d.north} S{Decimal.fixed 4 d.south} E{Decimal.fixed 4 d.east} W{Decimal.fixed 4 d.west}{remark}"

end Rectangle

end GlobeDrag
