import GlobeDrag.DateLine.Heading
import GlobeDrag.DateLine.Side

/-!
# Kinds of pointer moves

A move is judged by the sides on which the pointer was, is, and was when the drag began.
-/

namespace GlobeDrag.DateLine

variable {α : Type} [OfNat α 0] [LT α] [DecidableLT α]

/-- A pointer move in relation to the side of the anchor. -/
inductive Move where
  /-- The pointer stayed on the side of the anchor. -/
  | sameSide
  /-- The pointer left the side of the anchor, over the prime meridian or over the date line; `overDateLine` is the way
  travelled if it was the date line. -/
  | leftAnchorSide (overDateLine : Heading)
  /-- The pointer came back to the side of the anchor. -/
  | returnedToAnchorSide
  /-- The pointer stayed on the far side, or one of the longitudes has no side. -/
  | unclassified
deriving DecidableEq

namespace Move

/-- The name of a kind of move. -/
def name : Move → String
  | sameSide => "same-side"
  | leftAnchorSide _ => "left-anchor-side"
  | returnedToAnchorSide => "returned-to-anchor-side"
  | unclassified => "unclassified"

/-- The kind of a move by the sides of the last, the current and the anchor longitude. From the eastern side the date line is
crossed eastward, from the western side westward. -/
def ofSides : Option Side → Option Side → Option Side → Move
  | some .east, some .east, some .east => sameSide
  | some .west, some .west, some .west => sameSide
  | some .east, some .west, some .east => leftAnchorSide .east
  | some .west, some .east, some .west => leftAnchorSide .west
  | some .west, some .east, some .east => returnedToAnchorSide
  | some .east, some .west, some .west => returnedToAnchorSide
  | _, _, _ => unclassified

/-- The kind of the move from `last` to `current` in a drag that began at `anchor`. -/
def classify (last current anchor : α) : Move :=
  ofSides (Side.of last) (Side.of current) (Side.of anchor)

end Move

end GlobeDrag.DateLine
