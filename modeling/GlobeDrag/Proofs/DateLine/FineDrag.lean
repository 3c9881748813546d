import GlobeDrag.Proofs.DateLine.Exact
import GlobeDrag.Proofs.DateLine.Following
import GlobeDrag.Proofs.DateLine.Mirror

/-!
# The date line in a finely sampled drag

A course sees folded longitudes only. When the drag is sampled finely enough for its anchor, it decides rightly all the same: after
every sample the box wraps exactly when the pointer is beyond the date line from the anchor, and its bounds enclose the arc that was
travelled between the anchor and the pointer, not the rest of the turn.

Main statements: `run_isRight`, for anchors on either side of the prime meridian, and `isRight_run_doubles`, for longitudes that are
doubles.
-/

namespace GlobeDrag.DateLine

variable {K : Type} [Field K] [LinearOrder K] [IsStrictOrderedRing K] [Archimedean K] {half : K}

/-! ## Folding -/

/-- A longitude folded into the turn from `-half`, which is excluded, to `half`. -/
noncomputable def fold (hh : 0 < half) (u : K) : K :=
  toIocMod (add_pos hh hh) (-half) u

/-- Folding takes whole turns away. -/
theorem fold_eq (hh : 0 < half) {t : K} (h1 : -half < t) (h2 : t ≤ half) (turns : ℤ) :
    fold hh (t + turns * (2 * half)) = t := by
  rw [fold, toIocMod_eq_iff]
  exact ⟨⟨h1, by linarith⟩, turns, by rw [zsmul_eq_mul, two_mul]⟩

/-- What lies in the turn stays. -/
theorem fold_of_mem (hh : 0 < half) {t : K} (h1 : -half < t) (h2 : t ≤ half) : fold hh t = t := by
  simpa using fold_eq hh h1 h2 0

/-- What lies one turn to the east comes back by one turn. -/
theorem fold_of_east (hh : 0 < half) {t : K} (h1 : half < t) (h2 : t ≤ 3 * half) : fold hh t = t - 2 * half := by
  simpa using fold_eq hh (show -half < t - 2 * half by linarith) (by linarith) 1

/-- What lies one turn to the west comes back by one turn. -/
theorem fold_of_west (hh : 0 < half) {t : K} (h1 : -(3 * half) < t) (h2 : t ≤ -half) : fold hh t = t + 2 * half := by
  simpa using fold_eq hh (show -half < t + 2 * half by linarith) (by linarith) (-1)

/-! ## Right decisions -/

/-- A course is right about the pointer at the unwrapped longitude `u`: it wraps exactly when the pointer is beyond the date line,
and its bounds enclose just the longitudes passed on the way between the anchor and the pointer. -/
structure IsRight (hh : 0 < half) (a u : K) (beyond : Prop) (c : Course K) : Prop where
  crossing_iff : c.crossing = true ↔ beyond
  covers_iff : ∀ t, -half < t → t ≤ half →
    (covers (bounds c.crossing a (fold hh u)).1 (bounds c.crossing a (fold hh u)).2 t = true ↔
      ∃ w ∈ Set.uIcc a u, fold hh w = t)

/-- Within one turn the bounds enclose what lies between them. -/
theorem covers_of_not_crossing (hh : 0 < half) {a u t : K} (ha : -half < a) (ha' : a ≤ half) (hu : -half < u) (hu' : u ≤ half) :
    covers (bounds false a (fold hh u)).1 (bounds false a (fold hh u)).2 t = true ↔ ∃ w ∈ Set.uIcc a u, fold hh w = t := by
  have stays : ∀ w ∈ Set.uIcc a u, fold hh w = w := fun w hw =>
    fold_of_mem hh (lt_of_lt_of_le (lt_min ha hu) hw.1) (hw.2.trans (max_le ha' hu'))
  have hcov : covers (max a u) (min a u) t = true ↔ t ∈ Set.uIcc a u := by
    rw [covers, if_neg (not_lt.2 (min_le_max (a := a) (b := u))), Bool.and_eq_true, decide_eq_true_iff, decide_eq_true_iff]
    rfl
  rw [fold_of_mem hh hu hu', bounds]
  simp only [Bool.false_eq_true, if_false, greater_eq_max, lesser_eq_min, hcov]
  constructor
  · intro ht
    exact ⟨t, ht, stays t ht⟩
  · rintro ⟨w, hw, rfl⟩
    rwa [stays w hw]

/-- Beyond the date line east of the anchor the bounds enclose both parts of the way. -/
theorem covers_of_east (hh : 0 < half) {a u t : K} (ha : 0 < a) (hu : half < u) (hu' : u < 2 * half) (ha' : a ≤ half)
    (ht : -half < t) (ht' : t ≤ half) :
    covers (bounds true a (fold hh u)).1 (bounds true a (fold hh u)).2 t = true ↔ ∃ w ∈ Set.uIcc a u, fold hh w = t := by
  have hlt : u - 2 * half < a := by linarith
  have hau : a ≤ u := by linarith
  rw [fold_of_east hh hu (by linarith), bounds, Set.uIcc_of_le hau]
  simp only [if_true, greater_eq_max, lesser_eq_min, min_eq_right hlt.le, max_eq_left hlt.le, covers, if_pos hlt,
    Bool.or_eq_true, decide_eq_true_iff]
  constructor
  · rintro (h | h)
    · exact ⟨t, ⟨h, by linarith⟩, fold_of_mem hh ht ht'⟩
    · exact ⟨t + 2 * half, ⟨by linarith, by linarith⟩, by rw [fold_of_east hh (by linarith) (by linarith)]; ring⟩
  · rintro ⟨w, ⟨h1, h2⟩, rfl⟩
    rcases le_or_gt w half with hw | hw
    · rw [fold_of_mem hh (by linarith) hw]
      exact Or.inl h1
    · rw [fold_of_east hh hw (by linarith)]
      exact Or.inr (by linarith)

/-- Beyond the date line west of the anchor the bounds enclose both parts of the way. -/
theorem covers_of_west (hh : 0 < half) {a u t : K} (ha : a < 0) (hu : u ≤ -half) (hu' : -(2 * half) < u) (ha' : -half < a)
    (ht : -half < t) (ht' : t ≤ half) :
    covers (bounds true a (fold hh u)).1 (bounds true a (fold hh u)).2 t = true ↔ ∃ w ∈ Set.uIcc a u, fold hh w = t := by
  have hlt : a < u + 2 * half := by linarith
  have hau : u ≤ a := by linarith
  rw [fold_of_west hh (by linarith) hu, bounds, Set.uIcc_of_ge hau]
  simp only [if_true, greater_eq_max, lesser_eq_min, min_eq_left hlt.le, max_eq_right hlt.le, covers, if_pos hlt,
    Bool.or_eq_true, decide_eq_true_iff]
  constructor
  · rintro (h | h)
    · exact ⟨t - 2 * half, ⟨by linarith, by linarith⟩, by rw [fold_of_west hh (by linarith) (by linarith)]; ring⟩
    · exact ⟨t, ⟨by linarith, h⟩, fold_of_mem hh ht ht'⟩
  · rintro ⟨w, ⟨h1, h2⟩, rfl⟩
    rcases le_or_gt w (-half) with hw | hw
    · rw [fold_of_west hh (by linarith) hw]
      exact Or.inl (by linarith)
    · rw [fold_of_mem hh hw (by linarith)]
      exact Or.inr h2

/-! ## Fine drags -/

/-- An anchor east of the prime meridian. -/
theorem isRight_of_east (hh : 0 < half) {d a u : K} (hd : 0 < d) {before : List K}
    (fine : (a :: (before ++ [u])).IsChain fun u v => |v - u| ≤ d) (ha : 2 * d < a) (ha' : a < half - 2 * d)
    (unwrapped : ∀ v ∈ before ++ [u], -half < v ∧ v < 2 * half) :
    IsRight hh a u (half < u) (Course.start.run a ((before ++ [u]).map (fold hh))) := by
  have seen : ∀ v ∈ before ++ [u], SeenAt half v (fold hh v) := by
    intro v hv
    obtain ⟨h1, h2⟩ := unwrapped v hv
    rcases le_or_gt v half with h | h
    · exact Or.inl ⟨h1.le, h, fold_of_mem hh h1 h⟩
    · exact Or.inr ⟨h.le, h2, fold_of_east hh h (by linarith)⟩
  have hf := follows_run ⟨hd, ha, ha'⟩ fine seen
  obtain ⟨hu, hu'⟩ := unwrapped u (by simp)
  have hc : (Course.start.run a ((before ++ [u]).map (fold hh))).crossing = true ↔ half < u := by
    rw [hf.crossing_iff]
    rcases le_or_gt u half with h | h
    · rw [fold_of_mem hh hu h]
      exact iff_of_false (fun h' => h' rfl) (not_lt.2 h)
    · rw [fold_of_east hh h (by linarith)]
      exact iff_of_true (by linarith) h
  refine ⟨hc, ?_⟩
  intro t ht ht'
  rcases le_or_gt u half with h | h
  · rw [Bool.eq_false_iff.2 fun h' => not_lt.2 h (hc.1 h')]
    exact covers_of_not_crossing hh (by linarith) (by linarith) hu h
  · rw [hc.2 h]
    exact covers_of_east hh (by linarith) h hu' (by linarith) ht ht'

/-- An anchor west of the prime meridian: the drag with east and west exchanged begins east of it. -/
theorem isRight_of_west (hh : 0 < half) {d a u : K} (hd : 0 < d) {before : List K}
    (fine : (a :: (before ++ [u])).IsChain fun u v => |v - u| ≤ d) (ha : a < -(2 * d)) (ha' : -half + 2 * d < a)
    (unwrapped : ∀ v ∈ before ++ [u], -(2 * half) < v ∧ v < half) :
    IsRight hh a u (u ≤ -half) (Course.start.run a ((before ++ [u]).map (fold hh))) := by
  let seenExchanged : K → K := fun v => -fold hh (-v)
  have seen : ∀ v ∈ before.map (-·) ++ [-u], SeenAt half v (seenExchanged v) := by
    intro v hv
    rw [← List.map_singleton (f := (-·)), ← List.map_append, List.mem_map] at hv
    obtain ⟨w, hw, rfl⟩ := hv
    obtain ⟨h1, h2⟩ := unwrapped w hw
    simp only [seenExchanged, neg_neg]
    rcases le_or_gt w (-half) with h | h
    · rw [fold_of_west hh (by linarith) h]
      exact Or.inr ⟨by linarith, by linarith, by ring⟩
    · rw [fold_of_mem hh h h2.le]
      exact Or.inl ⟨by linarith, by linarith, rfl⟩
  have fine' : (-a :: (before.map (-·) ++ [-u])).IsChain fun u v => |v - u| ≤ d := by
    rw [← List.map_singleton (f := (-·)), ← List.map_append, List.isChain_cons_map]
    refine fine.imp ?_
    intro v w h
    rwa [neg_sub_neg, abs_sub_comm]
  have hf := follows_run ⟨hd, by linarith, by linarith⟩ fine' seen
  have hm : (Course.start.run (-a) ((before.map (-·) ++ [-u]).map seenExchanged)) =
      (Course.start.run a ((before ++ [u]).map (fold hh))).mirror := by
    rw [Course.mirror_run, Course.mirror_start]
    simp [seenExchanged, Function.comp_def]
  rw [hm] at hf
  obtain ⟨hu, hu'⟩ := unwrapped u (by simp)
  have hc : (Course.start.run a ((before ++ [u]).map (fold hh))).crossing = true ↔ u ≤ -half := by
    rw [← Course.crossing_mirror, hf.crossing_iff]
    simp only [seenExchanged, neg_neg, ne_eq, neg_inj]
    rcases le_or_gt u (-half) with h | h
    · rw [fold_of_west hh (by linarith) h]
      exact iff_of_true (by linarith) h
    · rw [fold_of_mem hh h hu'.le]
      exact iff_of_false (fun h' => h' rfl) (not_le.2 h)
  refine ⟨hc, ?_⟩
  intro t ht ht'
  rcases le_or_gt u (-half) with h | h
  · rw [hc.2 h]
    exact covers_of_west hh (by linarith) h hu (by linarith) ht ht'
  · rw [Bool.eq_false_iff.2 fun h' => not_le.2 h (hc.1 h')]
    exact covers_of_not_crossing hh (by linarith) (by linarith) h hu'.le

/-- After every sample of a fine drag the course is right, on whichever side of the prime meridian the drag began. -/
theorem run_isRight (hh : 0 < half) {d a : K} (hd : 0 < d) {path : List K}
    (fine : (a :: path).IsChain fun u v => |v - u| ≤ d) :
    (2 * d < a → a < half - 2 * d → (∀ u ∈ path, -half < u ∧ u < 2 * half) →
      ∀ before u after, path = before ++ u :: after →
        IsRight hh a u (half < u) (Course.start.run a ((before ++ [u]).map (fold hh)))) ∧
    (a < -(2 * d) → -half + 2 * d < a → (∀ u ∈ path, -(2 * half) < u ∧ u < half) →
      ∀ before u after, path = before ++ u :: after →
        IsRight hh a u (u ≤ -half) (Course.start.run a ((before ++ [u]).map (fold hh)))) := by
  have cut : ∀ {before : List K} {u : K} {after : List K}, path = before ++ u :: after →
      (a :: (before ++ [u])).IsChain (fun u v => |v - u| ≤ d) ∧ ∀ v ∈ before ++ [u], v ∈ path := by
    intro before u after h
    have h' : path = (before ++ [u]) ++ after := by rw [h, List.append_assoc]; rfl
    rw [h', ← List.cons_append] at fine
    exact ⟨fine.left_of_append, fun v hv => h' ▸ List.mem_append_left _ hv⟩
  constructor
  · intro ha ha' unwrapped before u after h
    obtain ⟨hf, hs⟩ := cut h
    exact isRight_of_east hh hd hf ha ha' fun v hv => unwrapped v (hs v hv)
  · intro ha ha' unwrapped before u after h
    obtain ⟨hf, hs⟩ := cut h
    exact isRight_of_west hh hd hf ha ha' fun v hv => unwrapped v (hs v hv)

/-- Half a turn being three, two drags that end half a unit beyond the date line. -/
theorem run_isRight_three :
    IsRight (by norm_num : (0 : ℚ) < 3) (3 / 2) (7 / 2) ((3 : ℚ) < 7 / 2)
      (Course.start.run (3 / 2) ([2, 5 / 2, 3, 7 / 2].map (fold (by norm_num : (0 : ℚ) < 3)))) ∧
    IsRight (by norm_num : (0 : ℚ) < 3) (-3 / 2) (-7 / 2) ((-7 / 2 : ℚ) ≤ -3)
      (Course.start.run (-3 / 2) ([-2, -5 / 2, -3, -7 / 2].map (fold (by norm_num : (0 : ℚ) < 3)))) := by
  have half : (0 : ℚ) < 3 := by norm_num
  have step : (0 : ℚ) < 1 / 2 := by norm_num
  have east : (3 / 2 :: [2, 5 / 2, 3, 7 / 2] : List ℚ).IsChain fun u v => |v - u| ≤ 1 / 2 := by decide +kernel
  have west : (-3 / 2 :: [-2, -5 / 2, -3, -7 / 2] : List ℚ).IsChain fun u v => |v - u| ≤ 1 / 2 := by decide +kernel
  exact ⟨(run_isRight half step east).1 (by norm_num) (by norm_num) (by decide +kernel) [2, 5 / 2, 3] (7 / 2) [] rfl,
    (run_isRight half step west).2 (by norm_num) (by norm_num) (by decide +kernel) [-2, -5 / 2, -3] (-7 / 2) [] rfl⟩

/-! ## Fine drags of doubles -/

open Binary64 (value)

/-- A course is right, as one on the values of the doubles it has seen, if these lie where a fine drag is seen. -/
theorem isRight_run_doubles {half d u : ℚ} (hh : 0 < half) (hd : 0 < d) {before : List ℚ} {anchor : Float} {longitudes : List Float}
    (ha : anchor.isNaN = false) (hl : ∀ l ∈ longitudes, l.isNaN = false) (seen : longitudes.map value = (before ++ [u]).map (fold hh))
    (fine : (value anchor :: (before ++ [u])).IsChain fun u v => |v - u| ≤ d) :
    (2 * d < value anchor → value anchor < half - 2 * d → (∀ v ∈ before ++ [u], -half < v ∧ v < 2 * half) →
      IsRight hh (value anchor) u (half < u) (Course.start.run anchor longitudes).exact) ∧
    (value anchor < -(2 * d) → -half + 2 * d < value anchor → (∀ v ∈ before ++ [u], -(2 * half) < v ∧ v < half) →
      IsRight hh (value anchor) u (u ≤ -half) (Course.start.run anchor longitudes).exact) := by
  have exact : (Course.start.run anchor longitudes).exact = Course.start.run (value anchor) ((before ++ [u]).map (fold hh)) := by
    rw [Course.exact_run ha (fun _ h => absurd h (Option.not_mem_none _)) hl, seen]
    rfl
  rw [exact]
  exact ⟨isRight_of_east hh hd fine, isRight_of_west hh hd fine⟩

end GlobeDrag.DateLine
