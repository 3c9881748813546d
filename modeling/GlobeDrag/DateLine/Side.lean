/-!
# Sides of the prime meridian

The longitudes of this folder may be of any type with an order and a zero: doubles when the library runs, exact numbers when a
drag is reasoned about.
-/

namespace GlobeDrag.DateLine

variable {α : Type} [OfNat α 0] [LT α] [DecidableLT α]

/-- A side of the prime meridian. -/
inductive Side where
  /-- The longitudes above zero. -/
  | east
  /-- The longitudes below zero. -/
  | west
deriving DecidableEq

/-- The side on which a longitude lies. Zero is on neither, nor is what cannot be compared with zero. -/
def Side.of (longitude : α) : Option Side :=
  if 0 < longitude then some .east
  else if longitude < 0 then some .west
  else none

/-- The sign of the longitudes of a side. -/
def Side.sign : Side → String
  | .east => "+"
  | .west => "-"

end GlobeDrag.DateLine
