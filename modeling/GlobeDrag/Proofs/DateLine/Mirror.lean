import GlobeDrag.Proofs.DateLine.Step

/-!
# East and west exchanged

Negating every longitude of a drag exchanges east and west and changes nothing else.

Main statements: `Course.mirror_step` and `Course.mirror_run`.
-/

namespace GlobeDrag.DateLine

/-- Negation turns the order of longitudes round and keeps zero. -/
class Mirrors (α : Type) [OfNat α 0] [BEq α] [LT α] [LE α] [Neg α] : Prop where
  asymm : ∀ x y : α, x < y → ¬y < x
  neg_lt_neg : ∀ x y : α, -x < -y ↔ y < x
  neg_le_neg : ∀ x y : α, -x ≤ -y ↔ y ≤ x
  zero_lt_neg : ∀ x : α, 0 < -x ↔ x < 0
  neg_lt_zero : ∀ x : α, -x < 0 ↔ 0 < x
  neg_beq_zero : ∀ x : α, (-x == 0) = (x == 0)

/-- Exact numbers are exchanged by their sign. -/
instance {K : Type} [Field K] [LinearOrder K] [IsStrictOrderedRing K] : Mirrors K where
  asymm _ _ h := h.asymm
  neg_lt_neg _ _ := neg_lt_neg_iff
  neg_le_neg _ _ := neg_le_neg_iff
  zero_lt_neg _ := neg_pos
  neg_lt_zero _ := Left.neg_neg_iff
  neg_beq_zero x := by
    rw [Bool.eq_iff_iff, beq_iff_eq, beq_iff_eq]
    exact neg_eq_zero

/-! ## Sides, headings and kinds of moves -/

/-- The other side. -/
def Side.opposite : Side → Side
  | .east => .west
  | .west => .east

/-- The opposite heading. -/
def Heading.opposite : Heading → Heading
  | .unset => .unset
  | .east => .west
  | .west => .east

/-- The kind of a move with east and west exchanged. -/
def Move.mirror : Move → Move
  | .leftAnchorSide overDateLine => .leftAnchorSide overDateLine.opposite
  | kind => kind

/-- Opposite headings contradict each other as the headings do. -/
@[simp] theorem Heading.contradicts_opposite (h way : Heading) :
    h.opposite.contradicts way.opposite = h.contradicts way := by
  cases h <;> cases way <;> rfl

/-- The opposite of a heading is east if it is west. -/
theorem Heading.opposite_eq_east_iff {h : Heading} : h.opposite = .east ↔ h = .west := by
  cases h <;> decide

/-- It is west if it is east. -/
theorem Heading.opposite_eq_west_iff {h : Heading} : h.opposite = .west ↔ h = .east := by
  cases h <;> decide

/-- A move between opposite sides is the mirror image. -/
theorem Move.ofSides_opposite (last current anchor : Option Side) :
    Move.ofSides (last.map .opposite) (current.map .opposite) (anchor.map .opposite) =
      (Move.ofSides last current anchor).mirror := by
  rcases last with _ | (_ | _) <;> rcases current with _ | (_ | _) <;> rcases anchor with _ | (_ | _) <;> rfl

variable {α : Type} [Neg α]

/-- The course with every longitude negated. -/
def Course.mirror (c : Course α) : Course α :=
  ⟨c.last.map (-·), c.heading.opposite, c.crossing⟩

/-- The mirror image wraps as the course does. -/
@[simp] theorem Course.crossing_mirror (c : Course α) : c.mirror.crossing = c.crossing := rfl

/-- A new course is its own mirror image. -/
@[simp] theorem Course.mirror_start : (start : Course α).mirror = start := rfl

/-- The mirror image of a move leads to the same wrapping. -/
theorem Course.crossingAfter_mirror (c : Course α) (kind : Move) :
    c.mirror.crossingAfter kind.mirror = c.crossingAfter kind := by
  cases kind with
  | leftAnchorSide overDateLine => exact congrArg (!·) (Heading.contradicts_opposite c.heading overDateLine)
  | _ => rfl

/-! ## Steps and runs -/

variable [OfNat α 0] [BEq α] [LT α] [LE α] [DecidableLT α] [Mirrors α]

/-- The mirror image of a longitude is on the opposite side. -/
theorem Side.of_mirror (longitude : α) : Side.of (-longitude) = (Side.of longitude).map .opposite := by
  rw [Side.of, Side.of]
  by_cases h : longitude < 0
  · rw [if_pos ((Mirrors.zero_lt_neg longitude).2 h), if_neg (fun h' => Mirrors.asymm _ _ h' h), if_pos h]
    rfl
  · rw [if_neg (fun h' => h ((Mirrors.zero_lt_neg longitude).1 h'))]
    by_cases h0 : 0 < longitude
    · rw [if_pos ((Mirrors.neg_lt_zero longitude).2 h0), if_pos h0]
      rfl
    · rw [if_neg (fun h' => h0 ((Mirrors.neg_lt_zero longitude).1 h')), if_neg h0, if_neg h]
      rfl

/-- A move between mirror images is the mirror image of the move. -/
theorem Move.classify_neg (last current anchor : α) :
    Move.classify (-last) (-current) (-anchor) = (Move.classify last current anchor).mirror := by
  rw [classify, Side.of_mirror, Side.of_mirror, Side.of_mirror, ofSides_opposite]
  rfl

variable [DecidableLE α]

/-- Headings are tracked alike on the mirror images. -/
theorem Heading.track_neg (h : Heading) (last current anchor : α) :
    h.opposite.track (-last) (-current) (-anchor) = (h.track last current anchor).opposite := by
  rw [track, track]
  simp only [Mirrors.neg_lt_neg, Mirrors.neg_le_neg, opposite_eq_east_iff, opposite_eq_west_iff]
  by_cases h1 : current < last
  · rw [if_neg (Mirrors.asymm _ _ h1), if_pos h1, if_pos h1]
    split <;> rfl
  · rw [if_neg h1]
    split
    · split <;> rfl
    · rfl

namespace Course

/-- The mirror image of a move leads to the opposite heading. -/
theorem headingAfter_mirror (c : Course α) (anchor last longitude : α) (kind : Move) :
    c.mirror.headingAfter (-anchor) (-last) (-longitude) kind.mirror =
      (c.headingAfter anchor last longitude kind).opposite := by
  cases kind with
  | sameSide => exact Heading.track_neg c.heading last longitude anchor
  | _ => rfl

/-- A step commutes with the exchange. -/
theorem mirror_step (anchor : α) (c : Course α) (longitude : α) :
    (c.step anchor longitude).mirror = c.mirror.step (-anchor) (-longitude) := by
  cases hl : c.last with
  | none =>
    have hm : c.mirror.last = none := by rw [mirror, hl]; rfl
    rw [step_of_none hl, step_of_none hm]
    rfl
  | some last =>
    have hm : c.mirror.last = some (-last) := by rw [mirror, hl]; rfl
    cases h0 : last == 0 with
    | true =>
      rw [step_of_zero hl h0, step_of_zero hm (by rw [Mirrors.neg_beq_zero, h0])]
      rfl
    | false =>
      rw [step_of_move hl h0, step_of_move hm (by rw [Mirrors.neg_beq_zero, h0]), Move.classify_neg, crossingAfter_mirror,
        headingAfter_mirror]
      rfl

/-- A run commutes with the exchange. -/
theorem mirror_run (anchor : α) (c : Course α) (longitudes : List α) :
    (c.run anchor longitudes).mirror = c.mirror.run (-anchor) (longitudes.map (-·)) := by
  induction longitudes generalizing c with
  | nil => rfl
  | cons longitude rest ih => rw [run_cons, ih, mirror_step, List.map_cons, run_cons]

end Course

end GlobeDrag.DateLine
