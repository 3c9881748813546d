import GlobeDrag.Proofs.DateLine.Meridian

/-!
# Holding on to a heading

Only a move on the side of the anchor, from a longitude on this side to another, can turn a drag, and it does so only past the anchor. A
drag that heads east goes on heading east while the pointer is at the anchor or east of it, whatever it does there, and the same holds in
the west; a drag that has a heading never loses it. A step that turns leaves it at that: it does not make the box begin or cease to wrap.

Main statements: `Course.step_cases` (all that a step can do), `Course.crossing_or_heading_kept` (what it does not do at once),
`Course.passed_of_turned_west` and `Course.passed_of_turned_east` (where it turns) and `Drag.heading_held`, about a run.
-/

namespace GlobeDrag

namespace DateLine

/-- A move stays on the side of the anchor if all three longitudes are there. -/
theorem Move.ofSides_eq_sameSide_iff {last current anchor : Option Side} :
    Move.ofSides last current anchor = .sameSide ↔ ∃ s, last = some s ∧ current = some s ∧ anchor = some s := by
  rcases last with _ | (_ | _) <;> rcases current with _ | (_ | _) <;> rcases anchor with _ | (_ | _) <;> simp [ofSides]

section Orders

variable {α : Type} [LT α] [LE α] [DecidableLT α] [DecidableLE α] {anchor last longitude : α}

/-! ## Headings -/

namespace Heading

/-- At the anchor or east of it a heading east is kept. -/
theorem track_east (h : anchor ≤ longitude) : east.track last longitude anchor = east := by
  rw [track]
  split
  · rw [if_pos ⟨rfl, h⟩]
  · split <;> rfl

/-- At the anchor or west of it a heading west is kept. -/
theorem track_west (h : longitude ≤ anchor) : west.track last longitude anchor = west := by
  rw [track]
  split
  · rfl
  · split
    · rw [if_pos ⟨rfl, h⟩]
    · rfl

/-- A move leaves no drag without a heading that had one. -/
theorem track_ne_unset {h : Heading} (hs : h ≠ unset) : h.track last longitude anchor ≠ unset := by
  rw [track]
  repeat' split
  all_goals first | exact hs | simp

/-- A heading east is given up only where the anchor is not at the pointer or west of it. -/
theorem not_le_of_track_east (h : east.track last longitude anchor = west) : ¬anchor ≤ longitude := by
  intro hle
  rw [track_east hle] at h
  cases h

/-- A heading west is given up only where the anchor is not at the pointer or east of it. -/
theorem not_le_of_track_west (h : west.track last longitude anchor = east) : ¬longitude ≤ anchor := by
  intro hle
  rw [track_west hle] at h
  cases h

end Heading

/-! ## Steps -/

variable [OfNat α 0] [BEq α] {c : Course α} {longitudes : List α}

/-- A step starts over, or it stays on the side of the anchor and may turn, or it keeps the heading and decides whether the box
wraps. -/
theorem Course.step_cases (anchor : α) (c : Course α) (longitude : α) :
    (c.move? anchor longitude = none ∧ c.step anchor longitude = ⟨some longitude, c.heading, false⟩) ∨
    (∃ last s, c.last = some last ∧ Side.of last = some s ∧ Side.of longitude = some s ∧ Side.of anchor = some s ∧
      c.move? anchor longitude = some .sameSide ∧
      c.step anchor longitude = ⟨some longitude, c.heading.track last longitude anchor, false⟩) ∨
    (∃ kind, kind ≠ .sameSide ∧ c.move? anchor longitude = some kind ∧
      c.step anchor longitude = ⟨some longitude, c.heading, c.crossingAfter kind⟩) := by
  cases hlast : c.last with
  | none =>
    left
    refine ⟨?_, step_of_none hlast⟩
    rw [move?, hlast]
  | some last =>
    cases h0 : last == 0 with
    | true =>
      left
      refine ⟨?_, step_of_zero hlast h0⟩
      rw [move?, hlast]
      exact if_pos h0
    | false =>
      have hmove : c.move? anchor longitude = some (.classify last longitude anchor) := by
        rw [move?, hlast]
        exact if_neg (by rw [h0]; exact Bool.false_ne_true)
      have hstep : c.step anchor longitude = _ := step_of_move hlast h0
      right
      by_cases same : Move.classify last longitude anchor = .sameSide
      · left
        obtain ⟨s, hl, hc, ha⟩ := Move.ofSides_eq_sameSide_iff.1 same
        rw [same] at hmove hstep
        exact ⟨last, s, rfl, hl, hc, ha, hmove, hstep⟩
      · right
        refine ⟨_, same, hmove, hstep.trans ?_⟩
        cases hk : Move.classify last longitude anchor with
        | sameSide => exact absurd hk same
        | _ => rfl

/-! ## Keeping and changing -/

namespace Course

/-- What holds of a heading holds after a step if tracking keeps it. -/
theorem heading_step {P : Heading → Prop} (h : P c.heading) (keeps : ∀ last, P (c.heading.track last longitude anchor)) :
    P (c.step anchor longitude).heading := by
  rcases c.step_cases anchor longitude with ⟨-, hs⟩ | ⟨last, _, -, -, -, -, -, hs⟩ | ⟨_, -, -, hs⟩ <;> rw [hs]
  · exact h
  · exact keeps last
  · exact h

/-- It holds after a run if tracking keeps it at all of the longitudes. -/
theorem heading_run {P : Heading → Prop} (h : P c.heading)
    (keeps : ∀ l ∈ longitudes, ∀ h last, P h → P (Heading.track h last l anchor)) : P (c.run anchor longitudes).heading :=
  List.foldlRecOn (motive := fun c : Course α => P c.heading) longitudes _ h fun _ h l hl =>
    heading_step h fun last => keeps l hl _ last h

/-- A step that changes the heading stays on the side of the anchor. -/
theorem sameSide_of_turned (h : (c.step anchor longitude).heading ≠ c.heading) :
    ∃ last s, c.move? anchor longitude = some .sameSide ∧ Side.of longitude = some s ∧ Side.of anchor = some s ∧
      (c.step anchor longitude).heading = c.heading.track last longitude anchor := by
  rcases c.step_cases anchor longitude with ⟨-, hs⟩ | ⟨last, s, -, -, hl, ha, hm, hs⟩ | ⟨_, -, -, hs⟩
  · exact absurd (congrArg heading hs) h
  · exact ⟨last, s, hm, hl, ha, congrArg heading hs⟩
  · exact absurd (congrArg heading hs) h

end Course

end Orders

/-! ## Doubles -/

open Binary64

variable {anchor last longitude : Float} {s : Side} {c : Course Float}

/-- What lies on the side of the anchor does not lie across from it. -/
theorem not_across_of_side (ha : Side.of anchor = some s) (hl : Side.of last = some s) : ¬Across anchor last := by
  have na := isNaN_of_side ha
  have nl := isNaN_of_side hl
  rw [← across_value na nl]
  rw [← Side.of_value na] at ha
  rw [← Side.of_value nl] at hl
  cases s with
  | east =>
    rw [Side.of_eq_east_iff] at ha hl
    rintro (⟨-, h⟩ | ⟨h, -⟩)
    · exact absurd hl (not_lt.2 h)
    · exact absurd ha h.asymm
  | west =>
    rw [Side.of_eq_west_iff] at ha hl
    rintro (⟨h, -⟩ | ⟨-, h⟩)
    · exact absurd ha h.asymm
    · exact absurd hl (not_lt.2 h)

namespace Course

/-- Where the mark is set only across from the anchor, a step changes the mark or the heading, not both. -/
theorem crossing_or_heading_kept (across : c.crossing = true → ∃ last, c.last = some last ∧ Across anchor last) :
    (c.step anchor longitude).crossing = c.crossing ∨ (c.step anchor longitude).heading = c.heading := by
  rcases c.step_cases anchor longitude with ⟨-, hs⟩ | ⟨last, s, hlast, sl, -, sa, -, hs⟩ | ⟨_, -, -, hs⟩ <;> rw [hs]
  · exact Or.inr rfl
  · left
    change false = c.crossing
    rw [eq_comm, Bool.eq_false_iff]
    intro hc
    obtain ⟨l, hl, ha⟩ := across hc
    rw [hlast, Option.some.injEq] at hl
    exact not_across_of_side sa sl (hl ▸ ha)
  · exact Or.inr rfl

/-- From east to west a drag turns on the side of the anchor, west of it. -/
theorem passed_of_turned_west (hc : c.heading = .east) (h : (c.step anchor longitude).heading = .west) :
    c.move? anchor longitude = some .sameSide ∧ longitude < anchor := by
  have turned : (c.step anchor longitude).heading ≠ c.heading := by
    rw [h, hc]
    decide
  obtain ⟨last, s, hm, hl, ha, ht⟩ := sameSide_of_turned turned
  rw [h, hc] at ht
  exact ⟨hm, lt_of_not_le_double (isNaN_of_side ha) (isNaN_of_side hl) (Heading.not_le_of_track_east ht.symm)⟩

/-- From west to east a drag turns on the side of the anchor, east of it. -/
theorem passed_of_turned_east (hc : c.heading = .west) (h : (c.step anchor longitude).heading = .east) :
    c.move? anchor longitude = some .sameSide ∧ anchor < longitude := by
  have turned : (c.step anchor longitude).heading ≠ c.heading := by
    rw [h, hc]
    decide
  obtain ⟨last, s, hm, hl, ha, ht⟩ := sameSide_of_turned turned
  rw [h, hc] at ht
  exact ⟨hm, lt_of_not_le_double (isNaN_of_side hl) (isNaN_of_side ha) (Heading.not_le_of_track_west ht.symm)⟩

end Course

end DateLine

open DateLine

/-! ## Runs -/

namespace Drag

/-- A run of a drag is a run of its course. -/
theorem foldl_step (d : Drag) (points : List Point) :
    points.foldl step d = ⟨d.anchor, d.course.run d.anchor.longitude (points.map Point.longitude)⟩ := by
  induction points generalizing d with
  | nil => rfl
  | cons p rest ih => exact ih (d.step p)

/-- What tracking keeps at all of the points holds of the heading after a run. -/
theorem heading_foldl_step {P : Heading → Prop} {d : Drag} {points : List Point} (h : P d.course.heading)
    (keeps : ∀ p ∈ points, ∀ h last, P h → P (Heading.track h last p.longitude d.anchor.longitude)) :
    P (points.foldl step d).course.heading := by
  rw [foldl_step]
  refine Course.heading_run h fun l hl => ?_
  obtain ⟨p, hp, rfl⟩ := List.mem_map.1 hl
  exact keeps p hp

/-- However the pointer moves about at the anchor and east of it, a drag that heads east goes on doing so, and the same holds in the
west. In any run a step turns the drag only on the side of the anchor and past it, and a heading is never lost. -/
theorem heading_held (d : Drag) (points : List Point) :
    (d.course.heading = .east → (∀ p ∈ points, d.anchor.longitude ≤ p.longitude) →
      ∀ before, before <+: points → (before.foldl step d).course.heading = .east) ∧
    (d.course.heading = .west → (∀ p ∈ points, p.longitude ≤ d.anchor.longitude) →
      ∀ before, before <+: points → (before.foldl step d).course.heading = .west) ∧
    (∀ before p, before ++ [p] <+: points →
      let d' := before.foldl step d
      (d'.course.heading = .east → (d'.step p).course.heading = .west →
        d'.move? p = some .sameSide ∧ p.longitude < d.anchor.longitude) ∧
      (d'.course.heading = .west → (d'.step p).course.heading = .east →
        d'.move? p = some .sameSide ∧ d.anchor.longitude < p.longitude)) ∧
    (d.course.heading ≠ .unset → ∀ before, before <+: points → (before.foldl step d).course.heading ≠ .unset) := by
  refine ⟨?_, ?_, ?_, ?_⟩
  · intro east beyond before hb
    refine heading_foldl_step (P := (· = .east)) east ?_
    rintro p hp _ last rfl
    exact Heading.track_east (beyond p (hb.subset hp))
  · intro west beyond before hb
    refine heading_foldl_step (P := (· = .west)) west ?_
    rintro p hp _ last rfl
    exact Heading.track_west (beyond p (hb.subset hp))
  · intro before p _ d'
    have anchor : d'.anchor = d.anchor := by rw [show d' = _ from foldl_step d before]
    rw [← anchor]
    exact ⟨Course.passed_of_turned_west, Course.passed_of_turned_east⟩
  · intro set before _
    exact heading_foldl_step (P := (· ≠ .unset)) set fun _ _ _ _ => Heading.track_ne_unset

/-- A drag that heads east and wavers east of its anchor until it comes back past it. -/
theorem heading_held_wavering :
    let d := [Point.mk 0.1 0.6, ⟨0.1, 0.9⟩].foldl step (.start ⟨0, 0.5⟩)
    let wavering := [Point.mk 0.1 0.7, ⟨0.1, 0.8⟩, ⟨0.1, 0.5⟩]
    d.course.heading = .east ∧ (∀ p ∈ wavering, d.anchor.longitude ≤ p.longitude) ∧
      (wavering.foldl step d).course.heading = .east ∧ ((wavering.foldl step d).step ⟨0.1, 0.4⟩).course.heading = .west ∧
      (wavering.foldl step d).move? ⟨0.1, 0.4⟩ = some .sameSide ∧ (0.4 : Float) < d.anchor.longitude := by
  intro d wavering
  have east : d.course.heading = .east := by decide +kernel
  have beyond : ∀ p ∈ wavering, d.anchor.longitude ≤ p.longitude := by decide +kernel
  have held := (heading_held d wavering).1 east beyond wavering List.prefix_rfl
  have turned : ((wavering.foldl step d).step ⟨0.1, 0.4⟩).course.heading = .west := by decide +kernel
  obtain ⟨same, past⟩ := ((heading_held d (wavering ++ [⟨0.1, 0.4⟩])).2.2.1 wavering ⟨0.1, 0.4⟩ List.prefix_rfl).1 held turned
  exact ⟨east, beyond, held, turned, same, past⟩

end Drag

end GlobeDrag
