import GlobeDrag.Proofs.DateLine.Step

/-!
# Following a finely sampled drag

A drag is sampled at unwrapped longitudes, of which a course sees one turn only. The anchor lies east of the prime meridian, further
than two sampling steps from it and from the date line. Then the heading tells where the pointer is: to the west below one step west of
the anchor, to the east above one step east of it. This invariant decides every move that leaves the side of the anchor.

Main statements: `Follows.step` (a step keeps the invariant) and `follows_run` (a run from the start of a drag has it).
-/

namespace GlobeDrag.DateLine

variable {K : Type} [Field K] [LinearOrder K] [IsStrictOrderedRing K]

/-! ## The invariant -/

/-- The longitude `l` seen at the unwrapped longitude `u` of a drag that goes no further west than the date line: up to the date line
it is `u` itself, from there on it is one turn less. On the date line it may be either. -/
def SeenAt (half u l : K) : Prop :=
  (-half ≤ u ∧ u ≤ half ∧ l = u) ∨ (half ≤ u ∧ u < 2 * half ∧ l = u - 2 * half)

/-- The anchor is further than two sampling steps of length `d` from the prime meridian and from the date line. -/
structure Clear (half d a : K) : Prop where
  step_pos : 0 < d
  off_meridian : 2 * d < a
  off_dateLine : a < half - 2 * d

/-- What a course knows when the pointer is at the unwrapped longitude `u`, seen at `l`. -/
structure Follows (d a u l : K) (c : Course K) : Prop where
  last_eq : c.last = some l
  crossing_iff : c.crossing = true ↔ l ≠ u
  west_of_lt : u < a - d → c.heading = .west
  east_of_lt : a + d < u → c.heading = .east

variable {half d a u v l m : K} {c : Course K}

/-! ## The heading -/

/-- A move on the side of the anchor leads to a heading that fits where it ends. -/
theorem track_fits (ha : Clear half d a) (near : |v - u| ≤ d) (h : Follows d a u l c) :
    (v < a - d → c.heading.track u v a = .west) ∧ (a + d < v → c.heading.track u v a = .east) := by
  have hd := ha.step_pos
  obtain ⟨h1, h2⟩ := abs_le.1 near
  rw [Heading.track]
  constructor
  · intro hv
    rcases lt_trichotomy v u with hlt | rfl | hlt
    · rw [if_pos hlt, if_neg (fun hn => by linarith [hn.2])]
    · rw [if_neg (lt_irrefl v), if_neg (lt_irrefl v)]
      exact h.west_of_lt hv
    · rw [if_neg hlt.asymm, if_pos hlt, if_pos ⟨h.west_of_lt (by linarith), by linarith⟩]
  · intro hv
    rcases lt_trichotomy v u with hlt | rfl | hlt
    · rw [if_pos hlt, if_pos ⟨h.east_of_lt (by linarith), by linarith⟩]
    · rw [if_neg (lt_irrefl v), if_neg (lt_irrefl v)]
      exact h.east_of_lt hv
    · rw [if_neg hlt.asymm, if_pos hlt, if_neg (fun hn => by linarith [hn.2])]

/-- A move that begins or ends off the side of the anchor stays on one hand of the anchor, and so the heading still fits. -/
theorem kept_fits (ha : Clear half d a) (near : |v - u| ≤ d) (off : u ≤ 0 ∨ v ≤ 0 ∨ half ≤ u ∨ half ≤ v)
    (h : Follows d a u l c) : (v < a - d → c.heading = .west) ∧ (a + d < v → c.heading = .east) := by
  obtain ⟨hd, hm, hl⟩ := ha
  obtain ⟨h1, h2⟩ := abs_le.1 near
  constructor
  · intro hv
    refine h.west_of_lt ?_
    rcases off with hu | hv' | hu | hv' <;> linarith
  · intro hv
    refine h.east_of_lt ?_
    rcases off with hu | hv' | hu | hv' <;> linarith

/-! ## Steps and runs -/

/-- The first move of a fine drag stays on the side of the anchor. -/
theorem follows_first (ha : Clear half d a) (near : |u - a| ≤ d) (seen : SeenAt half u l) :
    Follows d a u l (Course.start.step a l) := by
  obtain ⟨hd, hm, hl⟩ := ha
  obtain ⟨h1, h2⟩ := abs_le.1 near
  have hlu : l = u := by
    rcases seen with ⟨-, -, hs⟩ | ⟨hs, -⟩
    · exact hs
    · linarith
  rw [Course.step_of_none rfl]
  refine ⟨rfl, ?_, ?_, ?_⟩
  · simp [hlu]
  · intro h
    linarith
  · intro h
    linarith

/-- From the prime meridian a fine move leads nowhere near the date line. -/
theorem Follows.step_of_meridian (ha : Clear half d a) (near : |v - 0| ≤ d) (hv : SeenAt half v m)
    (h : Follows d a 0 0 c) : Follows d a v m (c.step a m) := by
  obtain ⟨hw, he⟩ := kept_fits ha near (Or.inl le_rfl) h
  obtain ⟨hd, hm, hl⟩ := ha
  obtain ⟨h1, h2⟩ := abs_le.1 near
  have hmv : m = v := by
    rcases hv with ⟨-, -, hs⟩ | ⟨hs, -⟩
    · exact hs
    · linarith
  rw [Course.step_of_zero h.last_eq (beq_self_eq_true 0)]
  refine ⟨rfl, ?_, hw, he⟩
  simp [hmv]

omit [IsStrictOrderedRing K] in
/-- What remains to be shown of a move once its kind is known. -/
theorem Follows.step_of_kind (h : Follows d a u l c) (h0 : l ≠ 0) (kind : Move) (hk : Move.classify l m a = kind)
    (crossing : c.crossingAfter kind = true ↔ m ≠ v)
    (heading : (v < a - d → c.headingAfter a l m kind = .west) ∧ (a + d < v → c.headingAfter a l m kind = .east)) :
    Follows d a v m (c.step a m) := by
  rw [Course.step_of_move h.last_eq (beq_false_of_ne h0), hk]
  exact ⟨rfl, crossing, heading.1, heading.2⟩

/-- From the side of the anchor: over the prime meridian the pointer leaves heading west, over the date line heading east. -/
theorem Follows.step_of_near (ha : Clear half d a) (near : |v - u| ≤ d) (hu0 : 0 < u) (hu : u ≤ half) (hv : SeenAt half v m)
    (h : Follows d a u u c) : Follows d a v m (c.step a m) := by
  have hc : c.crossing = false := by simpa using h.crossing_iff
  obtain ⟨hd, hm, hl⟩ := id ha
  obtain ⟨h1, h2⟩ := abs_le.1 near
  have anchor := Side.of_pos (show 0 < a by linarith)
  have last := Side.of_pos hu0
  rcases hv with ⟨-, hv, rfl⟩ | ⟨hv, hv', rfl⟩
  · rcases lt_trichotomy m 0 with hm0 | rfl | hm0
    · have hw := h.west_of_lt (by linarith)
      refine h.step_of_kind hu0.ne' (.leftAnchorSide .east) ?_ ?_ (kept_fits ha near (Or.inr (Or.inl hm0.le)) h)
      · rw [Move.classify, last, Side.of_neg hm0, anchor]
        rfl
      · simp [Course.crossingAfter, hw, Heading.contradicts]
    · refine h.step_of_kind hu0.ne' .unclassified ?_ ?_ (kept_fits ha near (Or.inr (Or.inl le_rfl)) h)
      · rw [Move.classify, last, Side.of_zero, anchor]
        rfl
      · simp [Course.crossingAfter, hc]
    · refine h.step_of_kind hu0.ne' .sameSide ?_ ?_ (track_fits ha near h)
      · rw [Move.classify, last, Side.of_pos hm0, anchor]
        rfl
      · simp [Course.crossingAfter]
  · have he := h.east_of_lt (by linarith)
    refine h.step_of_kind hu0.ne' (.leftAnchorSide .east) ?_ ?_ (kept_fits ha near (Or.inr (Or.inr (Or.inr hv))) h)
    · rw [Move.classify, last, Side.of_neg (by linarith), anchor]
      rfl
    · simp only [Course.crossingAfter, he, Heading.contradicts, Bool.not_false, true_iff]
      linarith

/-- From beyond the prime meridian the pointer stays there or comes back over it. -/
theorem Follows.step_of_west (ha : Clear half d a) (near : |v - u| ≤ d) (hu0 : u < 0) (hv : SeenAt half v m)
    (h : Follows d a u u c) : Follows d a v m (c.step a m) := by
  have hc : c.crossing = false := by simpa using h.crossing_iff
  have heading := kept_fits ha near (Or.inl hu0.le) h
  obtain ⟨hd, hm, hl⟩ := ha
  obtain ⟨h1, h2⟩ := abs_le.1 near
  have anchor := Side.of_pos (show 0 < a by linarith)
  have last := Side.of_neg hu0
  have hmv : m = v := by
    rcases hv with ⟨-, -, hs⟩ | ⟨hs, -⟩
    · exact hs
    · linarith
  subst hmv
  rcases lt_trichotomy m 0 with hm0 | rfl | hm0
  · refine h.step_of_kind hu0.ne .unclassified ?_ ?_ heading
    · rw [Move.classify, last, Side.of_neg hm0, anchor]
      rfl
    · simp [Course.crossingAfter, hc]
  · refine h.step_of_kind hu0.ne .unclassified ?_ ?_ heading
    · rw [Move.classify, last, Side.of_zero, anchor]
      rfl
    · simp [Course.crossingAfter, hc]
  · refine h.step_of_kind hu0.ne .returnedToAnchorSide ?_ ?_ heading
    · rw [Move.classify, last, Side.of_pos hm0, anchor]
      rfl
    · simp [Course.crossingAfter]

/-- From beyond the date line the pointer stays there or comes back over it. -/
theorem Follows.step_of_beyond (ha : Clear half d a) (near : |v - u| ≤ d) (hu : half ≤ u) (hu' : u < 2 * half)
    (hv : SeenAt half v m) (h : Follows d a u (u - 2 * half) c) : Follows d a v m (c.step a m) := by
  have heading := kept_fits ha near (Or.inr (Or.inr (Or.inl hu))) h
  obtain ⟨hd, hm, hl⟩ := ha
  obtain ⟨h1, h2⟩ := abs_le.1 near
  have anchor := Side.of_pos (show 0 < a by linarith)
  have hl0 : u - 2 * half < 0 := by linarith
  have last := Side.of_neg hl0
  have hc : c.crossing = true := h.crossing_iff.2 (by linarith)
  rcases hv with ⟨-, hv, rfl⟩ | ⟨hv, hv', rfl⟩
  · refine h.step_of_kind hl0.ne .returnedToAnchorSide ?_ ?_ heading
    · rw [Move.classify, last, Side.of_pos (by linarith), anchor]
      rfl
    · simp [Course.crossingAfter]
  · refine h.step_of_kind hl0.ne .unclassified ?_ ?_ heading
    · rw [Move.classify, last, Side.of_neg (by linarith), anchor]
      rfl
    · simp only [Course.crossingAfter, hc, true_iff]
      linarith

/-- A fine move keeps the invariant. -/
theorem Follows.step (ha : Clear half d a) (near : |v - u| ≤ d) (hu : SeenAt half u l) (hv : SeenAt half v m)
    (h : Follows d a u l c) : Follows d a v m (c.step a m) := by
  rcases hu with ⟨-, hu, rfl⟩ | ⟨hu, hu', rfl⟩
  · rcases lt_trichotomy l 0 with h0 | rfl | h0
    · exact h.step_of_west ha near h0 hv
    · exact h.step_of_meridian ha near hv
    · exact h.step_of_near ha near h0 hu hv
  · exact h.step_of_beyond ha near hu hu' hv

/-- A run along a finely sampled path has the invariant at its end, whichever way the date line is seen. -/
theorem follows_run (ha : Clear half d a) {see : K → K} {path : List K} {u : K}
    (fine : (a :: (path ++ [u])).IsChain fun u v => |v - u| ≤ d) (seen : ∀ v ∈ path ++ [u], SeenAt half v (see v)) :
    Follows d a u (see u) (Course.start.run a ((path ++ [u]).map see)) := by
  induction path using List.reverseRecOn generalizing u with
  | nil => exact follows_first ha (List.isChain_cons_cons.1 fine).1 (seen u (by simp))
  | append_singleton path w ih =>
    rw [List.map_append, List.map_singleton, Course.run_concat]
    have near : |u - w| ≤ d := by
      rw [List.append_assoc, ← List.cons_append] at fine
      exact (List.isChain_append_cons_cons.1 fine).2.1
    have fine' : (a :: (path ++ [w])).IsChain fun u v => |v - u| ≤ d := by
      rw [← List.cons_append] at fine
      exact fine.left_of_append
    have seen' : ∀ v ∈ path ++ [w], SeenAt half v (see v) := fun v hv => seen v (List.mem_append_left _ hv)
    exact (ih fine' seen').step ha near (seen' w (by simp)) (seen u (by simp))

end GlobeDrag.DateLine
