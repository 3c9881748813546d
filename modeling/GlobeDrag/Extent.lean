import GlobeDrag.Rectangle

/-!
# Stored extents

The degree-valued bounds that a search filter keeps, rounded to a number of decimal places. Bounds may be absent, because an
extent exists before anything was drawn.
-/

namespace GlobeDrag

/-- The decimal places kept unless settings say otherwise, about 11 metres. -/
def defaultPrecision : Nat := 4

/-- The bounds of a box in degrees, each of which may be absent. -/
structure Extent where
  north : Option Float
  south : Option Float
  east : Option Float
  west : Option Float
deriving BEq

namespace Extent

/-- The extent without bounds. -/
def empty : Extent := ⟨none, none, none, none⟩

/-- The extent of a box, its degrees rounded to `precision` decimal places. -/
def ofRectangle (r : Rectangle) (precision : Nat) : Extent :=
  let d := r.degrees
  ⟨some (Angle.roundTo d.north precision), some (Angle.roundTo d.south precision),
    some (Angle.roundTo d.east precision), some (Angle.roundTo d.west precision)⟩

/-- Whether no bound is there. -/
def isEmpty (e : Extent) : Bool :=
  e.north.isNone && e.south.isNone && e.east.isNone && e.west.isNone

/-- The box of an extent; absent unless all bounds are there and finite. -/
def rectangle? (e : Extent) : Option Rectangle := do
  let north ← e.north.filter Float.isFinite
  let south ← e.south.filter Float.isFinite
  let east ← e.east.filter Float.isFinite
  let west ← e.west.filter Float.isFinite
  return ⟨Angle.toRadians north, Angle.toRadians south, Angle.toRadians east, Angle.toRadians west⟩

/-- Whether the extent has a box whose bounds differ in pairs. A drag below the precision rounds to equal bounds. -/
def isDrawable (e : Extent) : Bool :=
  e.rectangle?.any fun r => r.north != r.south && r.east != r.west

end Extent

end GlobeDrag
