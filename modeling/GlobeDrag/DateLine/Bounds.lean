/-!
# Bounds between two longitudes

The eastern and western bound of the box between two longitudes, and the longitudes between two bounds. In a box that wraps over the
date line the bounds change places.
-/

namespace GlobeDrag.DateLine

variable {α : Type} [LE α] [DecidableLE α]

/-- The smaller of two numbers. One that is not comparable with itself is passed over. -/
def lesser (a b : α) : α :=
  if a ≤ b then a else if b ≤ b then b else a

/-- The larger of two numbers. One that is not comparable with itself is passed over. -/
def greater (a b : α) : α :=
  if b ≤ a then a else if b ≤ b then b else a

/-- The eastern and the western bound of the box between two longitudes: in this order the larger and the smaller one, the
other way round when the box wraps. -/
def bounds (crossing : Bool) (a b : α) : α × α :=
  if crossing then (lesser a b, greater a b) else (greater a b, lesser a b)

/-- Whether a longitude is met on the way eastward from the western bound to the eastern one, the bounds included. -/
def covers [LT α] [DecidableLT α] (east west longitude : α) : Bool :=
  if east < west then west ≤ longitude || longitude ≤ east
  else west ≤ longitude && longitude ≤ east

end GlobeDrag.DateLine
