import GlobeDrag.Proofs.Extent.Width
import GlobeDrag.Proofs.Tracker
import GlobeDrag.Session

/-!
# What a session draws

Whoever draws is told of boxes that the tracker gave out and whose extents are drawable. With settings that can be used, such a box
and its extent are in the same order, and the extent has a height. It has a width as well, except where its bounds were rounded to the
two names of the date line.

Main statements: `Tuned.drawn_run` (what every drawn event carries) and `size_of_drawn` (the size of what is drawn).
-/

namespace GlobeDrag

open Angle (InTurn halfTurn)
open Binary64

/-! ## Settings -/

namespace Settings

variable {s : Settings}

/-- The angle is refused unless it is positive and finite. -/
theorem refused_iff (s : Settings) :
    (!s.epsilon.isFinite || decide (s.epsilon ≤ 0)) = true ↔ ¬(s.epsilon.isFinite = true ∧ 0 < s.epsilon) := by
  rw [Bool.or_eq_true, Bool.not_eq_true', decide_eq_true_iff]
  constructor
  · rintro (infinite | low) ⟨finite, pos⟩
    · rw [finite] at infinite
      cases infinite
    · exact absurd ((lt_iff_value_lt (isNaN_of_lt pos).1 (isNaN_of_lt pos).2).1 pos) (value_le_of_le low).not_gt
  · intro refused
    by_cases finite : s.epsilon.isFinite = true
    · refine .inr (by_contra fun high => refused ⟨finite, ?_⟩)
      exact lt_of_not_le_double (isNaN_of_isFinite finite) (isNaN_of_isFinite isFinite_zero) high
    · exact .inl (by simpa using finite)

/-- A threshold that cannot be used is reported first. -/
theorem validate_of_epsilon (h : ¬(s.epsilon.isFinite = true ∧ 0 < s.epsilon)) : s.validate = .error (.epsilon s.epsilon) :=
  if_pos ((refused_iff s).2 h)

/-- Then a precision beyond fifteen is. -/
theorem validate_of_precision (h : s.epsilon.isFinite = true ∧ 0 < s.epsilon) (many : 15 < s.precision) :
    s.validate = .error (.precision s.precision) := by
  unfold validate
  rw [if_neg fun refused => (refused_iff s).1 refused h]
  exact if_pos many

/-- Settings can be used exactly if neither is at fault. -/
theorem validate_eq_ok : s.validate = .ok () ↔ (s.epsilon.isFinite = true ∧ 0 < s.epsilon) ∧ s.precision ≤ 15 := by
  by_cases h : s.epsilon.isFinite = true ∧ 0 < s.epsilon
  · rcases lt_or_ge 15 s.precision with many | few
    · simp [validate_of_precision h many, many]
    · unfold validate
      rw [if_neg fun refused => (refused_iff s).1 refused h, if_neg (by exact not_lt.2 few)]
      simp [h, few]
  · simp [validate_of_epsilon h, h]

/-- Settings that can be used have a positive angle and no more decimal places than a double offers. -/
theorem of_validate (h : s.validate = .ok ()) : s.epsilon.isFinite = true ∧ 0 < value s.epsilon ∧ s.precision ≤ 15 := by
  obtain ⟨⟨finite, pos⟩, few⟩ := validate_eq_ok.1 h
  obtain ⟨n0, nε⟩ := isNaN_of_lt pos
  exact ⟨finite, value_zero.symm.trans_lt ((lt_iff_value_lt n0 nε).1 pos), few⟩

end Settings

namespace Session

/-! ## Steps -/

/-- A session keeps its tracker at the angle of the settings, and the tracker is consistent. -/
structure Tuned (s : Session) : Prop where
  epsilon_eq : s.tracker.epsilon = s.settings.epsilon
  consistent : s.tracker.Consistent

variable {s : Session}

theorem tuned_start (settings : Settings) : (start settings).Tuned :=
  ⟨rfl, Tracker.consistent_of_drag_eq_none rfl⟩

theorem Tuned.rearm (h : s.Tuned) : s.rearm.Tuned :=
  ⟨h.epsilon_eq, Tracker.consistent_of_drag_eq_none rfl⟩

theorem Tuned.cancel (h : s.Tuned) : s.cancel.session.Tuned ∧ s.cancel.session.settings = s.settings := by
  unfold Session.cancel
  split
  · exact ⟨h.rearm, rfl⟩
  · exact ⟨h, rfl⟩

/-- Every operation keeps the tracker tuned to the settings. -/
theorem Tuned.handle (h : s.Tuned) (i : Input) :
    (s.handle i).session.Tuned ∧ (s.handle i).session.settings = s.settings := by
  cases i with
  | press point =>
    change (s.press point).session.Tuned ∧ (s.press point).session.settings = s.settings
    unfold press
    split
    · split
      · exact ⟨h, rfl⟩
      · exact ⟨⟨h.rearm.epsilon_eq, h.rearm.consistent⟩, rfl⟩
    · exact ⟨h, rfl⟩
  | move point =>
    change (s.move point).session.Tuned ∧ (s.move point).session.settings = s.settings
    unfold move
    split
    · next anchor current hphase =>
      have ht : (s.tracker.update anchor current).tracker.epsilon = s.settings.epsilon :=
        (s.tracker.epsilon_update anchor current).trans h.epsilon_eq
      dsimp only
      split
      · exact ⟨⟨ht, h.consistent.update anchor current⟩, rfl⟩
      · exact ⟨⟨ht, h.consistent.update anchor current⟩, rfl⟩
    · exact ⟨h, rfl⟩
  | release =>
    change s.release.session.Tuned ∧ s.release.session.settings = s.settings
    unfold release
    split
    · exact ⟨⟨h.epsilon_eq, Tracker.consistent_of_drag_eq_none rfl⟩, rfl⟩
    · exact ⟨h, rfl⟩
  | cancel => exact h.cancel
  | restart => exact ⟨h.cancel.1.rearm, h.cancel.2⟩

/-! ## Drawn boxes -/

/-- What an event carries that tells of a box to draw: a box between two points of the turn, and its drawable extent. -/
structure Drawn (settings : Settings) (box : Rectangle) (extent : Extent) : Prop where
  extent_eq : extent = .ofRectangle box settings.precision
  isDrawable : extent.isDrawable = true
  isFinite : box.isFinite = true
  spans : ∃ anchor current crossing, InTurn anchor.longitude ∧ InTurn current.longitude ∧ box.Spans anchor current crossing

/-- A pointer move tells of the box that the tracker gave out, if its extent is drawable. -/
theorem exists_of_drawn_move {point : Option Point} {box : Rectangle} {extent : Extent}
    (h : .drawn box extent ∈ (s.move point).events) :
    ∃ anchor current, (s.tracker.update anchor current).box = some box ∧ extent = .ofRectangle box s.settings.precision ∧
      extent.isDrawable = true := by
  unfold move at h
  split at h
  · next anchor current _ =>
    dsimp only at h
    split at h
    · simp at h
    · next box' hbox =>
      dsimp only at h
      split at h
      · next hd =>
        rw [List.mem_singleton, Event.drawn.injEq] at h
        obtain ⟨rfl, rfl⟩ := h
        exact ⟨anchor, current, hbox, rfl, hd⟩
      · simp at h
  · simp at h

/-- Only a pointer move tells of a box to draw. -/
theorem exists_move_of_drawn {i : Input} {box : Rectangle} {extent : Extent} (h : .drawn box extent ∈ (s.handle i).events) :
    ∃ point, i = .move point ∧ .drawn box extent ∈ (s.move point).events := by
  cases i with
  | press point =>
    change .drawn box extent ∈ (s.press point).events at h
    unfold press at h
    split at h
    · split at h <;> simp at h
    · simp at h
  | move point => exact ⟨point, rfl, h⟩
  | release =>
    change .drawn box extent ∈ s.release.events at h
    unfold release at h
    split at h <;> simp at h
  | cancel =>
    change .drawn box extent ∈ s.cancel.events at h
    unfold Session.cancel at h
    split at h <;> simp at h
  | restart =>
    change .drawn box extent ∈ s.cancel.events at h
    unfold Session.cancel at h
    split at h <;> simp at h

/-- What a drawn event of one operation carries. -/
theorem Tuned.drawn (h : s.Tuned) (valid : s.settings.validate = .ok ()) {i : Input} {box : Rectangle} {extent : Extent}
    (he : .drawn box extent ∈ (s.handle i).events) : Drawn s.settings box extent := by
  obtain ⟨fε, h0, -⟩ := Settings.of_validate valid
  obtain ⟨point, -, hmove⟩ := exists_move_of_drawn he
  obtain ⟨anchor, current, hbox, hext, hd⟩ := exists_of_drawn_move hmove
  obtain ⟨d, cons, -, -, hcf, hturn, hfin, rfl⟩ := h.consistent.box_eq hbox
  refine ⟨hext, hd, hfin, d.anchor, current.normalize, d.course.crossing, cons.inTurn_anchor, hturn, ?_⟩
  rw [h.epsilon_eq]
  exact Rectangle.spans_spanning d.course.crossing cons.isFinite_anchor hcf fε h0.le

/-- What the drawn events of a run carry. -/
theorem Tuned.drawn_run (h : s.Tuned) (valid : s.settings.validate = .ok ()) {inputs : List Input} {st : Step Answer}
    (hst : st ∈ s.run inputs) {box : Rectangle} {extent : Extent} (he : .drawn box extent ∈ st.events) :
    Drawn s.settings box extent := by
  induction inputs generalizing s with
  | nil => cases hst
  | cons i rest ih =>
    obtain ⟨h', hset⟩ := h.handle i
    rcases List.mem_cons.1 hst with rfl | hst
    · exact h.drawn valid he
    · rw [← hset]
      exact ih h' (hset ▸ valid) hst

/-! ## The size of what is drawn -/

/-- In every session with settings that can be used, what is drawn has a height, and it has a width except where its bounds are the two
names of the date line. -/
theorem size_of_drawn {settings : Settings} (valid : settings.validate = .ok ()) (inputs : List Input) :
    ∀ st ∈ (start settings).run inputs, ∀ box extent, .drawn box extent ∈ st.events →
      ∃ r, extent.rectangle? = some r ∧ 0 < r.height ∧
        (extent.NamesDateLine → (r.width == 0) = true) ∧ (¬extent.NamesDateLine → 0 < r.width) := by
  intro st hst box extent he
  obtain ⟨rfl, hd, hf, anchor, current, crossing, ha, hc, spans⟩ := (tuned_start settings).drawn_run valid hst he
  obtain ⟨-, -, hp⟩ := Settings.of_validate valid
  have hr := Extent.numbers_of_isFinite hf
  refine ⟨_, (Extent.exists_restoredBox hd).1, Extent.zero_lt_height hp hr hd spans.south_le_north, ?_⟩
  cases hw : box.crossesDateLine with
  | true =>
    obtain ⟨h1, h2⟩ := spans.mem_turn ha hc
    exact Extent.width_of_crossing hp hr hd hw h1 h2
  | false =>
    obtain ⟨h1, h2⟩ := Extent.zero_lt_width_of_plain hp hr hd hw
    constructor
    · intro h
      exact absurd h h2
    · intro _
      exact h1

/-- A drag that ends with a thin box over the date line, both bounds of which round to the date line. -/
def thinDrag : List Input :=
  [.press (some ⟨Angle.toRadians 0, Point.longitudeOfDegrees 179.99997⟩),
    .move (some ⟨Angle.toRadians 1, Point.longitudeOfDegrees 179.99999⟩),
    .move (some ⟨Angle.toRadians 1, Point.longitudeOfDegrees (-179.99996)⟩)]

/-- The default settings can be used, and the thin drag draws a box with them. -/
theorem size_of_drawn_default :
    ({} : Settings).validate = .ok () ∧ ∃ st ∈ (start {}).run thinDrag, ∃ box extent, .drawn box extent ∈ st.events ∧
      ∃ r, extent.rectangle? = some r ∧ 0 < r.height ∧
        (extent.NamesDateLine → (r.width == 0) = true) ∧ (¬extent.NamesDateLine → 0 < r.width) := by
  have run : ((start {}).run thinDrag).any (fun st => st.events.any fun
      | .drawn .. => true
      | _ => false) = true := by decide +kernel
  obtain ⟨st, hst, h⟩ := List.any_eq_true.1 run
  obtain ⟨event, he, h⟩ := List.any_eq_true.1 h
  cases event with
  | drawn box extent => exact ⟨rfl, st, hst, box, extent, he, size_of_drawn rfl thinDrag st hst box extent he⟩
  | _ => cases h

/-- What a thin drag over the date line draws may have no width. -/
theorem thinDrag_without_width :
    ({} : Settings).validate = .ok () ∧ ∃ st ∈ (start {}).run thinDrag, ∃ box extent r, .drawn box extent ∈ st.events ∧
      extent.rectangle? = some r ∧ (r.width == 0) = true ∧ ¬0 < r.width := by
  have run : ((start {}).run thinDrag).any (fun st => st.events.any fun
      | .drawn _ extent => extent.rectangle?.any fun r => r.width == 0 && !decide (0 < r.width)
      | _ => false) = true := by decide +kernel
  obtain ⟨st, hst, h⟩ := List.any_eq_true.1 run
  obtain ⟨event, he, h⟩ := List.any_eq_true.1 h
  cases event with
  | drawn box extent =>
    obtain ⟨r, hr, h⟩ := (Option.any_eq_true _ _).1 h
    rw [Bool.and_eq_true, Bool.not_eq_true', decide_eq_false_iff_not] at h
    exact ⟨rfl, st, hst, box, extent, r, he, hr, h.1, h.2⟩
  | _ => cases h

end Session

end GlobeDrag
