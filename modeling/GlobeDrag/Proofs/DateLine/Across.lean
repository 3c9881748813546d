import GlobeDrag.Proofs.DateLine.Exact

/-!
# Where a box may wrap

A course has its box wrap only while the pointer is off the side of the anchor: strictly on the other side, or on the prime meridian
itself. A pointer on the side of the anchor clears the mark, and an anchor on the prime meridian never lets it be set.

Main statements: `crossing_step_of_side` (a longitude on the side of the anchor clears the mark) and `across_step` (after any step the
mark is set only across).
-/

namespace GlobeDrag.DateLine

/-- The longitude `last` lies across from `anchor`: the anchor is off the prime meridian, and `last` is strictly on the other side of
it or on it. -/
def Across {α : Type} [OfNat α 0] [LT α] [LE α] (anchor last : α) : Prop :=
  0 < anchor ∧ last ≤ 0 ∨ anchor < 0 ∧ 0 ≤ last

/-! ## Exact longitudes -/

section Exact

variable {K : Type} [LinearOrder K] [Zero K] {anchor longitude : K} {c : Course K}

/-- What is not zero has a side. -/
theorem Side.exists_of_ne {x : K} (h : x ≠ 0) : ∃ s, Side.of x = some s := by
  rcases lt_or_gt_of_ne h with h | h
  · exact ⟨_, Side.of_neg h⟩
  · exact ⟨_, Side.of_pos h⟩

namespace Course

/-- A longitude on the side of the anchor clears the mark. -/
theorem crossing_step_of_side {side : Side} (ha : Side.of anchor = some side) (hl : Side.of longitude = some side) :
    (c.step anchor longitude).crossing = false := by
  cases h : c.last with
  | none => rw [step_of_none h]
  | some last =>
    by_cases h0 : last = 0
    · rw [step_of_zero h (beq_iff_eq.2 h0)]
    · obtain ⟨s, hs⟩ := Side.exists_of_ne h0
      rw [step_of_move h (beq_false_of_ne h0), Move.classify, hs, hl, ha]
      cases s <;> cases side <;> rfl

/-- With an anchor on the prime meridian the mark is not set. -/
theorem crossing_of_crossing_step_zero (h : (c.step 0 longitude).crossing = true) : c.crossing = true := by
  cases hlast : c.last with
  | none =>
    rw [step_of_none hlast] at h
    cases h
  | some last =>
    by_cases h0 : last = 0
    · rw [step_of_zero hlast (beq_iff_eq.2 h0)] at h
      cases h
    · have hk : Move.classify last longitude 0 = .unclassified := by
        rw [Move.classify, Side.of_zero]
        rcases Side.of last with _ | (_ | _) <;> rcases Side.of longitude with _ | (_ | _) <;> rfl
      rw [step_of_move hlast (beq_false_of_ne h0), hk] at h
      exact h

/-- After a step the mark is set only across. -/
theorem across_step (hc : c.crossing = true → ∃ last, c.last = some last ∧ Across anchor last)
    (h : (c.step anchor longitude).crossing = true) : Across anchor longitude := by
  rcases lt_trichotomy anchor 0 with ha | rfl | ha
  · rcases lt_or_ge longitude 0 with hl | hl
    · rw [crossing_step_of_side (Side.of_neg ha) (Side.of_neg hl)] at h
      cases h
    · exact Or.inr ⟨ha, hl⟩
  · obtain ⟨last, -, ⟨h0, -⟩ | ⟨h0, -⟩⟩ := hc (crossing_of_crossing_step_zero h)
    · exact absurd h0 (lt_irrefl 0)
    · exact absurd h0 (lt_irrefl 0)
  · rcases lt_or_ge 0 longitude with hl | hl
    · rw [crossing_step_of_side (Side.of_pos ha) (Side.of_pos hl)] at h
      cases h
    · exact Or.inl ⟨ha, hl⟩

end Course

end Exact

/-! ## Doubles -/

open Binary64 (value value_zero isNaN_of_isFinite isFinite_zero lt_iff_value_lt le_iff_value_le)

variable {anchor longitude : Float} {c : Course Float}

/-- Doubles lie across from each other as their exact values do. -/
theorem across_value {last : Float} (ha : anchor.isNaN = false) (hl : last.isNaN = false) :
    Across (value anchor) (value last) ↔ Across anchor last := by
  have h0 := isNaN_of_isFinite isFinite_zero
  rw [Across, Across, lt_iff_value_lt h0 ha, lt_iff_value_lt ha h0, le_iff_value_le h0 hl, le_iff_value_le hl h0, value_zero]

namespace Course

/-- A step of doubles onto the side of the anchor ends without a wrapping box. -/
theorem crossing_step_of_side_double {side : Side} (na : anchor.isNaN = false) (nc : ∀ last ∈ c.last, last.isNaN = false)
    (nl : longitude.isNaN = false) (ha : Side.of anchor = some side) (hl : Side.of longitude = some side) :
    (c.step anchor longitude).crossing = false := by
  have h : (c.step anchor longitude).exact.crossing = false := by
    rw [exact_step na nc nl]
    exact crossing_step_of_side (by rw [Side.of_value na, ha]) (by rw [Side.of_value nl, hl])
  exact h

/-- A box wraps only between longitudes on two sides, also on doubles. -/
theorem across_step_double (na : anchor.isNaN = false) (nc : ∀ last ∈ c.last, last.isNaN = false) (nl : longitude.isNaN = false)
    (hc : c.crossing = true → ∃ last, c.last = some last ∧ Across anchor last)
    (h : (c.step anchor longitude).crossing = true) : Across anchor longitude := by
  rw [← across_value na nl]
  have h' : (c.exact.step (value anchor) (value longitude)).crossing = true := by
    rw [← exact_step na nc nl]
    exact h
  refine across_step ?_ h'
  intro hcr
  obtain ⟨last, hlast, ha⟩ := hc hcr
  refine ⟨value last, ?_, (across_value na (nc last hlast)).2 ha⟩
  rw [exact, hlast]
  rfl

end Course

end GlobeDrag.DateLine
