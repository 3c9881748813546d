import GlobeDrag.Extent
import GlobeDrag.Json.Record
import GlobeDrag.Json.Tree

/-!
# Points, boxes and extents as JSON

How the geometric types are written as JSON and read from it. Points and boxes must have all their numbers. The bounds of an extent
may be left out or `null`, and those that are absent are not written.
-/

namespace GlobeDrag

open Json (Format Shape Tree)
open Json.Shape (required)

/-! ## Points -/

/-- How a point is written. -/
def Point.shape : Shape (List (String × Float)) Point :=
  .uniform "GeoPoint" ["latitude", "longitude"] .double fun values => do
    return ⟨← required values "latitude", ← required values "longitude"⟩

/-- A point as JSON. -/
def Point.tree (p : Point) : Tree :=
  .object [("latitude", .double p.latitude), ("longitude", .double p.longitude)]

/-- Reads a point. -/
def Point.ofJson (text : String) : Except Json.Error Point :=
  Point.shape.format.document text

/-! ## Boxes -/

/-- How a box is written. -/
def Rectangle.shape : Shape (List (String × Float)) Rectangle :=
  .uniform "Rectangle" ["north", "south", "east", "west"] .double fun values => do
    return ⟨← required values "north", ← required values "south", ← required values "east", ← required values "west"⟩

/-- A box as JSON. -/
def Rectangle.tree (r : Rectangle) : Tree :=
  .object [("north", .double r.north), ("south", .double r.south), ("east", .double r.east), ("west", .double r.west)]

/-- Reads a box. -/
def Rectangle.ofJson (text : String) : Except Json.Error Rectangle :=
  Rectangle.shape.format.document text

/-! ## Extents -/

/-- How an extent is written. A bound that is left out is absent like one that is `null`. -/
def Extent.shape : Shape (List (String × Option Float)) Extent :=
  .uniform "BboxModel" ["north", "south", "east", "west"] Format.double.optional fun values =>
    .ok ⟨(values "north").join, (values "south").join, (values "east").join, (values "west").join⟩

/-- The bounds of an extent that are there, with their names. -/
def Extent.bounds (e : Extent) : List (String × Float) :=
  [("north", e.north), ("south", e.south), ("east", e.east), ("west", e.west)].filterMap fun (name, bound) =>
    bound.map (name, ·)

/-- An extent as JSON. -/
def Extent.tree (e : Extent) : Tree :=
  .object (e.bounds.map fun (name, x) => (name, .double x))

/-- An extent as JSON text. -/
def Extent.toJson (e : Extent) : String :=
  e.tree.compact

/-- Reads an extent. -/
def Extent.ofJson (text : String) : Except Json.Error Extent :=
  Extent.shape.format.document text

end GlobeDrag
