/-!
# Headings

Where a drag is heading along the parallels. `Heading.track` updates a heading by one pointer move; it holds on to the old
heading until the pointer has passed the anchor, so that jitter at the far edge of a box does not turn it.
-/

namespace GlobeDrag.DateLine

variable {α : Type} [LT α] [LE α] [DecidableLT α] [DecidableLE α]

/-- Where a drag is heading. -/
inductive Heading where
  /-- No move along the parallels was seen yet. -/
  | unset
  /-- Toward larger longitudes. -/
  | east
  /-- Toward smaller longitudes. -/
  | west
deriving DecidableEq

namespace Heading

/-- The name of a heading. -/
def name : Heading → String
  | unset => "unset"
  | east => "east"
  | west => "west"

/-- Whether a heading is the opposite of the way travelled. An unset heading opposes nothing. -/
def contradicts : Heading → Heading → Bool
  | east, west => true
  | west, east => true
  | _, _ => false

/-- The heading after a move from `last` to `current`. A move against the heading turns it only past the anchor. -/
def track (heading : Heading) (last current anchor : α) : Heading :=
  if current < last then
    if heading = east ∧ anchor ≤ current then east else west
  else if last < current then
    if heading = west ∧ current ≤ anchor then west else east
  else heading

end Heading

end GlobeDrag.DateLine
