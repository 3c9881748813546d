import GlobeDrag.DateLine.Move

/-!
# The course of a drag

What a drag remembers of the longitudes it has seen, and the step by which a new longitude changes it. The question that a
course answers is whether the box between the anchor and the pointer wraps over the date line: a pointer that jumps between the
sides either crossed the date line or came through the prime meridian, and the heading decides which.
-/

namespace GlobeDrag.DateLine

variable {α : Type} [OfNat α 0] [BEq α] [LT α] [LE α] [DecidableLT α] [DecidableLE α]

/-- What is remembered between the pointer moves of one drag. -/
structure Course (α : Type) where
  /-- The pointer longitude of the move before; absent before the first. -/
  last : Option α
  /-- Where the drag is heading. -/
  heading : Heading
  /-- Whether the box wraps over the date line. -/
  crossing : Bool

namespace Course

/-- The course before the first move. -/
def start : Course α := ⟨none, .unset, false⟩

/-- The kind of the move to `longitude`; absent when there is nothing to compare with, which is before the first move and after
a longitude of zero, which has no side. -/
def move? (anchor : α) (c : Course α) (longitude : α) : Option Move :=
  match c.last with
  | none => none
  | some last => if last == 0 then none else some (.classify last longitude anchor)

/-- Whether the box wraps over the date line after a move of the given kind. -/
def crossingAfter (c : Course α) : Move → Bool
  | .sameSide => false
  | .leftAnchorSide overDateLine => !c.heading.contradicts overDateLine
  | .returnedToAnchorSide => false
  | .unclassified => c.crossing

/-- The heading after a move of the given kind from `last` to `longitude`: only moves on the side of the anchor change it. -/
def headingAfter (c : Course α) (anchor last longitude : α) : Move → Heading
  | .sameSide => c.heading.track last longitude anchor
  | _ => c.heading

/-- The course after the pointer moved to `longitude`. With nothing to compare with, the box does not wrap. -/
def step (anchor : α) (c : Course α) (longitude : α) : Course α :=
  match c.last, c.move? anchor longitude with
  | some last, some move => ⟨some longitude, c.headingAfter anchor last longitude move, c.crossingAfter move⟩
  | _, _ => ⟨some longitude, c.heading, false⟩

/-- The course after the pointer moved to each of the longitudes in turn. -/
def run (anchor : α) (c : Course α) (longitudes : List α) : Course α :=
  longitudes.foldl (step anchor) c

end Course

end GlobeDrag.DateLine
