import GlobeDrag.Proofs.DateLine.Heading
import GlobeDrag.Proofs.Tracker.History

/-!
# What the log tells of a drag

A position leaves a note when the box begins or ceases to wrap, and only otherwise one when the heading changes. Nothing is lost by that,
since no position of a drag changes both. Whoever reads the notes of a drag in their order knows at any time whether its box wraps and
where it is heading.

Main statements: `Drag.foldl_note_changes` (the notes of one step), `reading_log` (the notes of a drag) and `log_tells_course`, which
joins them.
-/

namespace GlobeDrag

open DateLine

/-! ## Reading notes -/

/-- What a reader of the log knows of a drag: whether its box wraps, and where it is heading. -/
@[ext]
structure Reading where
  crossing : Bool
  heading : Heading

/-- What is known of a drag of which nothing was noted. -/
def Reading.start : Reading := ⟨false, .unset⟩

/-- What is known after a further note. -/
def Reading.note (r : Reading) : Note → Reading
  | .crossingChanged crossing _ _ => { r with crossing }
  | .headingChanged _ after => { r with heading := after }
  | _ => r

/-- Whether a note tells that a drag gave way to one with another anchor. -/
def Note.opensDrag : Note → Bool
  | .anchorChanged _ => true
  | _ => false

namespace Drag

/-- What there is to know of a drag. -/
def reading (d : Drag) : Reading := ⟨d.course.crossing, d.course.heading⟩

variable {d d' : Drag} {current : Point}

/-- The notes of a step that does not change both mark and heading tell all that it changes. -/
theorem foldl_note_changes (current : Point)
    (kept : d'.course.crossing = d.course.crossing ∨ d'.course.heading = d.course.heading) :
    (d.changes d' current).foldl Reading.note d.reading = d'.reading := by
  rw [changes]
  split
  · next hc => exact Reading.ext rfl (kept.resolve_left hc).symm
  · next hc =>
    have same : d'.course.crossing = d.course.crossing := not_not.1 hc
    split
    · exact Reading.ext same.symm rfl
    · next hh => exact Reading.ext same.symm (not_not.1 hh).symm

/-- A change of the heading is not hidden by one of the mark. -/
theorem headingChanged_mem_changes (kept : d'.course.crossing = d.course.crossing ∨ d'.course.heading = d.course.heading)
    (h : d'.course.heading ≠ d.course.heading) : .headingChanged d.course.heading d'.course.heading ∈ d.changes d' current := by
  rw [changes, if_neg (not_not.2 (kept.resolve_right h)), if_pos h]
  exact List.mem_singleton_self _

/-- A change on the way does not open a drag. -/
theorem opensDrag_of_mem_changes {n : Note} (h : n ∈ d.changes d' current) : n.opensDrag = false := by
  rw [changes] at h
  split at h
  · rw [List.mem_singleton.1 h]
    rfl
  · split at h
    · rw [List.mem_singleton.1 h]
      rfl
    · cases h

/-- A step changes the flag or the heading, not both. -/
theorem Consistent.kept (h : d.Consistent) (current : Point) :
    (d.step current).course.crossing = d.course.crossing ∨ (d.step current).course.heading = d.course.heading :=
  Course.crossing_or_heading_kept h.across

end Drag

/-! ## The log of a run -/

namespace Tracker

/-- The notes of a call. -/
def notes (t : Tracker) : Input → List Note
  | .update anchor current => (t.update anchor current).notes
  | .finish => t.finish.notes
  | .reset => []

/-- The notes of a sequence of calls, each with its call. -/
def log (t : Tracker) : List Input → List (Input × List Note)
  | [] => []
  | i :: rest => (i, t.notes i) :: (t.handle i).log rest

/-- The notes since the drag in progress began: since a drag was last ended or dropped, and since one last gave way to another. -/
def notesOfDrag (calls : List (Input × List Note)) : List Note :=
  ((calls.rtakeWhile (·.1.isUpdate)).flatMap (·.2)).rtakeWhile (!·.opensDrag)

/-- What there is to know of the drag in progress. -/
def reading (t : Tracker) : Reading := ⟨t.crossing, t.heading⟩

variable {t : Tracker} {anchor current : Point} {calls : List (Input × List Note)}

theorem log_concat (t : Tracker) (inputs : List Input) (i : Input) :
    t.log (inputs ++ [i]) = t.log inputs ++ [(i, (t.after inputs).notes i)] := by
  induction inputs generalizing t with
  | nil => rfl
  | cons j rest ih => exact congrArg ((j, t.notes j) :: ·) (ih (t.handle j))

/-- A call that ends or drops the drag leaves no notes of it. -/
theorem notesOfDrag_of_end {i : Input} {notes : List Note} (h : i.isUpdate = false) : notesOfDrag (calls ++ [(i, notes)]) = [] := by
  rw [notesOfDrag, List.rtakeWhile_concat_neg _ _ _ (by simp [h])]
  rfl

/-- Notes of one drag are added to those before. -/
theorem notesOfDrag_of_same {notes : List Note} (h : ∀ n ∈ notes, n.opensDrag = false) :
    notesOfDrag (calls ++ [(.update anchor current, notes)]) = notesOfDrag calls ++ notes := by
  rw [notesOfDrag, List.rtakeWhile_concat_pos _ _ _ rfl, List.flatMap_append, List.flatMap_singleton, List.rtakeWhile,
    List.reverse_append, List.takeWhile_append_of_pos (by simpa using h), List.reverse_append, List.reverse_reverse]
  rfl

/-- Notes of a drag that took the place of another are the first of it. -/
theorem notesOfDrag_of_other {notes : List Note} {a : Point} (h : ∀ n ∈ notes, n.opensDrag = false) :
    notesOfDrag (calls ++ [(.update anchor current, .anchorChanged a :: notes)]) = notes := by
  rw [notesOfDrag, List.rtakeWhile_concat_pos _ _ _ rfl, List.flatMap_append, List.flatMap_singleton, List.append_cons, List.rtakeWhile,
    List.reverse_append, List.takeWhile_append_of_pos (by simpa using h), List.reverse_concat,
    List.takeWhile_cons_of_neg (by simp [Note.opensDrag]), List.append_nil, List.reverse_reverse]

/-- The notes of a position with finite coordinates. -/
theorem notes_update (ha : anchor.isFinite = true) (hc : current.isFinite = true) :
    (t.update anchor current).notes = (t.facing anchor.normalize).2.2 ++
      (t.facing anchor.normalize).1.changes ((t.facing anchor.normalize).1.step current.normalize) current.normalize := by
  rw [update, if_neg (by rw [ha, hc]; decide)]
  dsimp only
  split <;> rfl

/-- A drag that faces an anchor is known as far as the tracker's is, or it is new and the log says so. -/
theorem reading_facing (t : Tracker) (anchor : Point) :
    ((t.facing anchor).1.reading = t.reading ∧ (t.facing anchor).2.2 = []) ∨
      ((t.facing anchor).1.reading = .start ∧ (t.facing anchor).2.2 = [.anchorChanged anchor]) := by
  rw [facing, reading, crossing, heading]
  cases t.drag with
  | none => exact Or.inl ⟨rfl, rfl⟩
  | some d =>
    dsimp only
    split
    · exact Or.inl ⟨rfl, rfl⟩
    · exact Or.inr ⟨rfl, rfl⟩

/-- A call keeps what is read in the log to what there is to know. -/
theorem Consistent.reading_handle (h : t.Consistent) (read : (notesOfDrag calls).foldl Reading.note .start = t.reading) (i : Input) :
    (notesOfDrag (calls ++ [(i, t.notes i)])).foldl Reading.note .start = (t.handle i).reading := by
  cases i with
  | update anchor current =>
    rw [notes]
    by_cases hf : anchor.isFinite = true ∧ current.isFinite = true
    · have told := Drag.foldl_note_changes current.normalize ((h.facing hf.1).kept current.normalize)
      have after : (t.handle (.update anchor current)).reading = ((t.facing anchor.normalize).1.step current.normalize).reading := by
        rw [Tracker.handle, reading, crossing, heading, drag_update hf.1 hf.2]
        rfl
      rw [notes_update hf.1 hf.2, after, ← told]
      rcases t.reading_facing anchor.normalize with ⟨hr, hn⟩ | ⟨hr, hn⟩ <;> rw [hr, hn]
      · rw [List.nil_append, notesOfDrag_of_same fun _ => Drag.opensDrag_of_mem_changes, List.foldl_append, read]
      · rw [List.singleton_append, notesOfDrag_of_other fun _ => Drag.opensDrag_of_mem_changes]
    · have hn : (anchor.isFinite && current.isFinite) = false := by rwa [← Bool.not_eq_true, Bool.and_eq_true]
      rw [Tracker.handle, update_of_not_isFinite hn, notesOfDrag_of_same (by simp [Note.opensDrag]), List.foldl_append, read]
      rfl
  | finish =>
    rw [notesOfDrag_of_end rfl]
    rfl
  | reset =>
    rw [notesOfDrag_of_end rfl]
    rfl

/-- After any calls, what is read in the log is what there is to know. -/
theorem reading_log (epsilon : Float) (inputs : List Input) :
    (notesOfDrag (log { epsilon } inputs)).foldl Reading.note .start = (after { epsilon } inputs).reading := by
  induction inputs using List.reverseRecOn with
  | nil => rfl
  | append_singleton l i ih =>
    rw [after_concat, log_concat]
    exact ((consistent_of_drag_eq_none (t := { epsilon }) rfl).after l).1.reading_handle ih i

/-- After any calls, a position of the drag in progress changes its mark or its heading, not both, and notes every change of the heading.
The notes of the drag, read in their order from its beginning, tell whether its box wraps and where it is heading. -/
theorem log_tells_course (epsilon : Float) (inputs : List Input) :
    let t := after { epsilon } inputs
    (∀ anchor current d d', t.drag = some d → (d.anchor == anchor.normalize) = true →
      (t.update anchor current).tracker.drag = some d' →
        (d'.course.crossing = d.course.crossing ∨ d'.course.heading = d.course.heading) ∧
        (d'.course.heading ≠ d.course.heading →
          .headingChanged d.course.heading d'.course.heading ∈ (t.update anchor current).notes)) ∧
    (notesOfDrag (log { epsilon } inputs)).foldl Reading.note .start = ⟨t.crossing, t.heading⟩ := by
  intro t
  have consistent : t.Consistent := ((consistent_of_drag_eq_none (t := { epsilon }) rfl).after inputs).1
  refine ⟨?_, reading_log epsilon inputs⟩
  intro anchor current d d' hd same hd'
  by_cases hf : anchor.isFinite = true ∧ current.isFinite = true
  · have faces := facing_of_drag hd same
    rw [drag_update hf.1 hf.2, faces, Option.some.injEq] at hd'
    have kept := (consistent d hd).kept current.normalize
    rw [notes_update hf.1 hf.2, faces, ← hd']
    exact ⟨kept, Drag.headingChanged_mem_changes kept⟩
  · rw [update_of_not_isFinite (by rwa [← Bool.not_eq_true, Bool.and_eq_true])] at hd'
    obtain rfl := Option.some.inj (hd.symm.trans hd')
    exact ⟨Or.inl rfl, fun h => absurd rfl h⟩

/-- A drag over the date line whose heading changes before, and the notes of it. -/
theorem log_tells_course_wrapping :
    let inputs := [Input.update ⟨0, 1⟩ ⟨0, 2⟩, .update ⟨0, 3⟩ ⟨0.1, 3⟩, .update ⟨0, 3⟩ ⟨0.1, 3.1⟩, .update ⟨0, 3⟩ ⟨0.1, -3.1⟩]
    let t := after { epsilon := defaultEpsilon } inputs
    ∃ d d', t.drag = some d ∧ (d.anchor == Point.normalize ⟨0, 3⟩) = true ∧
      (t.update ⟨0, 3⟩ ⟨0.1, 2.9⟩).tracker.drag = some d' ∧
      (d'.course.crossing = d.course.crossing ∨ d'.course.heading = d.course.heading) ∧
      (notesOfDrag (log { epsilon := defaultEpsilon } inputs)).length = 2 ∧
      (notesOfDrag (log { epsilon := defaultEpsilon } inputs)).foldl Reading.note .start = ⟨true, .east⟩ := by
  intro inputs t
  have wraps : t.crossing = true ∧ t.heading = .east := by decide +kernel
  obtain ⟨within, read⟩ := log_tells_course defaultEpsilon inputs
  have active : t.drag.isSome = true := by decide +kernel
  obtain ⟨d, hd⟩ := Option.isSome_iff_exists.1 active
  have anchored : t.drag.all (·.anchor == Point.normalize ⟨0, 3⟩) = true := by decide +kernel
  have same : (d.anchor == Point.normalize ⟨0, 3⟩) = true := by rwa [hd] at anchored
  have active' : (t.update ⟨0, 3⟩ ⟨0.1, 2.9⟩).tracker.drag.isSome = true := by decide +kernel
  obtain ⟨d', hd'⟩ := Option.isSome_iff_exists.1 active'
  refine ⟨d, d', hd, same, hd', (within ⟨0, 3⟩ ⟨0.1, 2.9⟩ d d' hd same hd').1, by decide +kernel, read.trans ?_⟩
  exact Reading.ext wraps.1 wraps.2

end Tracker

end GlobeDrag
