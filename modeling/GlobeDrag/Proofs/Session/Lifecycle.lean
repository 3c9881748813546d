import GlobeDrag.Proofs.Tracker.History
import GlobeDrag.Session

/-!
# The life of a session

A session holds the box of a drag twice, in its tracker and as an extent, and the anchor twice, as it was pressed and folded. Both
pairs agree at all times. An armed session is a new one, and in the middle of a drag a session is what the positions of this drag make
of a new tracker; nothing else that happened before can be told from it.

Main statements: `handle_midDrag` (one operation in a drag), `after_cases` (what a session can be), `after_press` (what it is in a drag)
and `drag_agrees`, which joins them.
-/

namespace GlobeDrag

/-! ## Trackers that keep to one anchor -/

namespace Tracker

/-- The drag in progress, if there is one, has the given anchor, folded. -/
def Faces (t : Tracker) (anchor : Point) : Prop :=
  ∀ d, t.drag = some d → d.anchor = anchor.normalize

variable {t : Tracker} {anchor : Point}

/-- A tracker that faces an anchor keeps its drag and its last box for it. -/
theorem Faces.facing (h : t.Faces anchor) (ha : anchor.isFinite = true) :
    (t.facing anchor.normalize).1.anchor = anchor.normalize ∧ (t.facing anchor.normalize).2.1 = t.lastBox := by
  rw [Tracker.facing]
  cases hd : t.drag with
  | none => exact ⟨rfl, rfl⟩
  | some d =>
    dsimp only
    rw [h d hd, if_pos (Point.beq_self (Drag.isFinite_normalize ha))]
    exact ⟨h d hd, rfl⟩

/-- A position of the drag from an anchor keeps a tracker to this anchor, and its box becomes the last one. -/
theorem Faces.update (h : t.Faces anchor) (ha : anchor.isFinite = true) (current : Point) :
    (t.update anchor current).tracker.Faces anchor ∧
      (t.update anchor current).tracker.lastBox = (t.update anchor current).box.or t.lastBox := by
  cases hc : current.isFinite with
  | true =>
    obtain ⟨h1, h2⟩ := h.facing ha
    rw [tracker_update ha hc, h2]
    refine ⟨?_, rfl⟩
    intro d hd
    obtain rfl := Option.some.inj hd
    exact h1
  | false =>
    rw [update_of_not_isFinite (by rw [hc, Bool.and_false])]
    exact ⟨h, rfl⟩

/-- After positions of the drag from one anchor, a new tracker faces it, and its last box is the last one that it gave. -/
theorem faces_after (epsilon : Float) (ha : anchor.isFinite = true) (points : List Point) :
    (after { epsilon } (points.map (.update anchor))).Faces anchor ∧
      (after { epsilon } (points.map (.update anchor))).lastBox =
        (answers { epsilon } (points.map (.update anchor))).reduceOption.getLast? := by
  induction points using List.reverseRecOn with
  | nil => exact ⟨nofun, rfl⟩
  | append_singleton l p ih =>
    obtain ⟨h1, h2⟩ := ih
    obtain ⟨h3, h4⟩ := h1.update ha p
    rw [List.map_append, List.map_singleton, after_concat, answers_concat]
    refine ⟨h3, h4.trans ?_⟩
    rw [h2, List.reduceOption_append, List.getLast?_append]
    refine congrArg (Option.or · _) ?_
    change _ = (List.reduceOption [((after { epsilon } (l.map (.update anchor))).update anchor p).box]).getLast?
    cases ((after { epsilon } (l.map (.update anchor))).update anchor p).box <;> rfl

end Tracker

namespace Session

/-! ## Operations and answers -/

/-- The position that an operation brings to a drag: that of a move on the globe. -/
def Input.position? : Input → Option Point
  | .move point => point
  | _ => none

/-- Whether an operation leaves a drag in progress. -/
def Input.staysInDrag : Input → Bool
  | .press _ => true
  | .move _ => true
  | _ => false

/-- The box that an answer holds. -/
def Answer.box? : Answer → Option Rectangle
  | .moved box => box
  | _ => none

/-- The boxes that steps answer with. -/
def boxes (steps : List (Step Answer)) : List Rectangle :=
  steps.filterMap (·.answer.box?)

theorem boxes_concat (steps : List (Step Answer)) (st : Step Answer) :
    boxes (steps ++ [st]) = boxes steps ++ st.answer.box?.toList := by
  rw [boxes, List.filterMap_append, boxes]
  cases h : st.answer.box? <;> simp [h]

theorem after_concat (s : Session) (inputs : List Input) (i : Input) :
    s.after (inputs ++ [i]) = ((s.after inputs).handle i).session :=
  List.foldl_concat ..

theorem after_append (s : Session) (inputs later : List Input) : s.after (inputs ++ later) = (s.after inputs).after later :=
  List.foldl_append

theorem run_concat (s : Session) (inputs : List Input) (i : Input) :
    s.run (inputs ++ [i]) = s.run inputs ++ [(s.after inputs).handle i] := by
  induction inputs generalizing s with
  | nil => rfl
  | cons j rest ih => exact congrArg (s.handle j :: ·) (ih (s.handle j).session)

/-! ## The middle and the end of a drag -/

/-- The extent of the last box of a drag, which is empty before there is one. -/
def extentOf (settings : Settings) (lastBox : Option Rectangle) : Extent :=
  lastBox.elim .empty (.ofRectangle · settings.precision)

/-- A new tracker after the positions of a drag. -/
def trackerOf (settings : Settings) (anchor : Point) (points : List Point) : Tracker :=
  .after { epsilon := settings.epsilon } (points.map (.update anchor))

/-- The session in the middle of a drag from `anchor` with the given positions. -/
def midDrag (settings : Settings) (anchor : Point) (points : List Point) : Session where
  settings
  tracker := trackerOf settings anchor points
  phase := .dragging anchor
  extent := extentOf settings (trackerOf settings anchor points).lastBox

/-- The session after a drag from `anchor` with the given positions was ended. -/
def endOfDrag (settings : Settings) (anchor : Point) (points : List Point) : Session where
  settings
  tracker := { epsilon := settings.epsilon }
  phase := .committed
  extent := extentOf settings (trackerOf settings anchor points).lastBox

variable {settings : Settings} {anchor : Point}

/-- A press on the globe begins a drag in a new session. -/
theorem press_start (ha : anchor.isFinite = true) :
    (start settings).press (some anchor) = ⟨midDrag settings anchor [], true, [.begun anchor], [.dragStarted anchor]⟩ := by
  have hp : (some anchor).filter Point.isFinite = some anchor := by rw [Option.filter_some, ha, if_pos rfl]
  simp only [press, start, hp]
  rfl

/-- A press off the globe leaves a new session as it is. -/
theorem press_start_of_none {point : Option Point} (h : point.filter Point.isFinite = none) :
    ((start settings).press point).session = start settings := by
  simp only [press, start, h]

/-- The tracker of a drag after one more position. -/
theorem trackerOf_concat (settings : Settings) (anchor : Point) (points : List Point) (p : Point) :
    trackerOf settings anchor (points ++ [p]) = ((trackerOf settings anchor points).update anchor p).tracker := by
  rw [trackerOf, List.map_append, List.map_singleton, Tracker.after_concat]
  rfl

/-- It keeps the threshold of the settings. -/
theorem epsilon_trackerOf (settings : Settings) (anchor : Point) (points : List Point) :
    (trackerOf settings anchor points).epsilon = settings.epsilon :=
  Tracker.epsilon_after ..

/-- A move on the globe in a drag adds its position, and answers what the tracker gives for it. -/
theorem move_midDrag (ha : anchor.isFinite = true) (points : List Point) (p : Point) :
    ((midDrag settings anchor points).move (some p)).session = midDrag settings anchor (points ++ [p]) ∧
      ((midDrag settings anchor points).move (some p)).answer = ((trackerOf settings anchor points).update anchor p).box := by
  have hlast := ((Tracker.faces_after settings.epsilon ha points).1.update ha p).2
  change ((trackerOf settings anchor points).update anchor p).tracker.lastBox =
    ((trackerOf settings anchor points).update anchor p).box.or (trackerOf settings anchor points).lastBox at hlast
  cases hb : ((trackerOf settings anchor points).update anchor p).box with
  | none =>
    rw [hb, Option.none_or] at hlast
    simp only [move, midDrag, trackerOf_concat, hb, hlast, and_self]
  | some box =>
    rw [hb, Option.some_or] at hlast
    simp only [move, midDrag, trackerOf_concat, hb, hlast, extentOf, Option.elim_some, and_self]

/-- An operation that stays in the drag adds the position that it brings. -/
theorem handle_midDrag (ha : anchor.isFinite = true) (points : List Point) {i : Input} (hi : i.staysInDrag = true) :
    ((midDrag settings anchor points).handle i).session = midDrag settings anchor (points ++ i.position?.toList) := by
  cases i with
  | press point => exact congrArg (midDrag settings anchor) (List.append_nil points).symm
  | move point =>
    cases point with
    | none => exact congrArg (midDrag settings anchor) (List.append_nil points).symm
    | some p => exact (move_midDrag ha points p).1
  | release => cases hi
  | cancel => cases hi
  | restart => cases hi

/-- The box that an operation in a drag answers with is the one that the tracker gives for its position. -/
theorem box?_handle_midDrag (ha : anchor.isFinite = true) (points : List Point) {i : Input} (hi : i.staysInDrag = true) :
    ((midDrag settings anchor points).handle i).answer.box? =
      i.position?.bind fun p => ((trackerOf settings anchor points).update anchor p).box := by
  cases i with
  | press point => rfl
  | move point =>
    cases point with
    | none => rfl
    | some p => exact (move_midDrag ha points p).2
  | release => cases hi
  | cancel => cases hi
  | restart => cases hi

/-- A release in the middle of a drag ends it. -/
theorem release_midDrag (settings : Settings) (anchor : Point) (points : List Point) :
    ((midDrag settings anchor points).handle .release).session = endOfDrag settings anchor points := by
  change Session.mk _ (Tracker.reset _) _ _ = _
  rw [Tracker.reset, midDrag, epsilon_trackerOf]
  rfl

/-- A drag that is given up leaves a new session. -/
theorem rearm_midDrag (settings : Settings) (anchor : Point) (points : List Point) :
    (midDrag settings anchor points).rearm = start settings := by
  rw [rearm, Tracker.reset, midDrag, epsilon_trackerOf]
  rfl

/-- The log of a release names the last box of the drag. -/
theorem notes_release_midDrag (settings : Settings) (anchor : Point) (points : List Point) :
    (midDrag settings anchor points).release.notes = match (trackerOf settings anchor points).lastBox with
      | some box => [.dragFinished box, .boxCommitted box]
      | none => [.endedWithoutBox] := by
  change (trackerOf settings anchor points).lastBox.toList.map Note.dragFinished ++
    [match (trackerOf settings anchor points).lastBox with
      | some box => Note.boxCommitted box
      | none => .endedWithoutBox] = _
  cases (trackerOf settings anchor points).lastBox <;> rfl

/-! ## Drags in a run -/

/-- After the operations `before`, a press at `anchor` begins a drag, and the operations `during` stay in it. -/
structure Drags (settings : Settings) (before : List Input) (anchor : Point) (during : List Input) : Prop where
  armed : ((start settings).after before).phase = .armed
  isFinite : anchor.isFinite = true
  stays : ∀ i ∈ during, i.staysInDrag = true

/-- The positions that operations bring to a drag. -/
def positions (during : List Input) : List Point :=
  during.filterMap Input.position?

/-- The positions of a drag with one more operation. -/
theorem positions_concat (during : List Input) (i : Input) : positions (during ++ [i]) = positions during ++ i.position?.toList := by
  rw [positions, List.filterMap_append, positions]
  cases h : i.position? <;> simp [h]

variable {before during : List Input}

/-- In the middle of a drag a session is what the positions of the drag make of it. -/
theorem after_midDrag (ha : anchor.isFinite = true) (stays : ∀ i ∈ during, i.staysInDrag = true) :
    (midDrag settings anchor []).after during = midDrag settings anchor (positions during) := by
  induction during using List.reverseRecOn with
  | nil => rfl
  | append_singleton l i ih =>
    rw [after_concat, ih fun j hj => stays j (List.mem_append_left _ hj), positions_concat]
    exact handle_midDrag ha _ (stays i (List.mem_append_right _ (List.mem_singleton_self i)))

/-- In the middle of a drag a session answers with the boxes that a new tracker gives for the positions of the drag. -/
theorem boxes_midDrag (ha : anchor.isFinite = true) (stays : ∀ i ∈ during, i.staysInDrag = true) :
    boxes ((midDrag settings anchor []).run during) =
      (Tracker.answers { epsilon := settings.epsilon } ((positions during).map (.update anchor))).reduceOption := by
  induction during using List.reverseRecOn with
  | nil => rfl
  | append_singleton l i ih =>
    have stays' : ∀ j ∈ l, j.staysInDrag = true := fun j hj => stays j (List.mem_append_left _ hj)
    have hi := stays i (List.mem_append_right _ (List.mem_singleton_self i))
    rw [run_concat, after_midDrag ha stays', boxes_concat, box?_handle_midDrag ha _ hi, ih stays', positions_concat]
    cases i.position? with
    | none => rw [Option.bind_none, Option.toList_none, Option.toList_none, List.append_nil, List.append_nil]
    | some p =>
      rw [Option.bind_some, Option.toList_some, List.map_append, List.map_singleton, Tracker.answers_concat,
        List.reduceOption_append]
      refine congrArg (List.reduceOption _ ++ ·) ?_
      change _ = List.reduceOption [((trackerOf settings anchor (positions l)).update anchor p).box]
      cases ((trackerOf settings anchor (positions l)).update anchor p).box <;> rfl

/-- After any operations a session is new, or in the middle of a drag that a press of the run began, or at the end of one. -/
theorem after_cases (settings : Settings) (inputs : List Input) :
    (start settings).after inputs = start settings ∨
      (∃ before anchor during, inputs = before ++ .press (some anchor) :: during ∧ Drags settings before anchor during ∧
        (start settings).after inputs = midDrag settings anchor (positions during)) ∨
      ∃ anchor points, (start settings).after inputs = endOfDrag settings anchor points := by
  induction inputs using List.reverseRecOn with
  | nil => exact Or.inl rfl
  | append_singleton l i ih =>
    rw [after_concat]
    rcases ih with h | ⟨before, anchor, during, rfl, hd, h⟩ | ⟨anchor, points, h⟩ <;> rw [h]
    · cases i with
      | press point =>
        cases hp : point.filter Point.isFinite with
        | none => exact Or.inl (press_start_of_none hp)
        | some anchor =>
          obtain ⟨rfl, ha⟩ := Option.filter_eq_some_iff.1 hp
          refine Or.inr (Or.inl ⟨l, anchor, [], rfl, ⟨by rw [h]; rfl, ha, nofun⟩, ?_⟩)
          exact congrArg Step.session (press_start ha)
      | move point => exact Or.inl rfl
      | release => exact Or.inl rfl
      | cancel => exact Or.inl rfl
      | restart => exact Or.inl rfl
    · cases hi : i.staysInDrag with
      | true =>
        refine Or.inr (Or.inl ⟨before, anchor, during ++ [i], by simp, ⟨hd.armed, hd.isFinite, ?_⟩, ?_⟩)
        · intro j hj
          rcases List.mem_append.1 hj with hj | hj
          · exact hd.stays j hj
          · rw [List.mem_singleton.1 hj, hi]
        · rw [positions_concat]
          exact handle_midDrag hd.isFinite _ hi
      | false =>
        cases i with
        | press point => cases hi
        | move point => cases hi
        | release => exact Or.inr (Or.inr ⟨anchor, positions during, release_midDrag ..⟩)
        | cancel => exact Or.inl (rearm_midDrag ..)
        | restart =>
          refine Or.inl ?_
          change (midDrag settings anchor (positions during)).rearm.rearm = _
          rw [rearm_midDrag]
          rfl
    · cases i with
      | press point => exact Or.inr (Or.inr ⟨anchor, points, rfl⟩)
      | move point => exact Or.inr (Or.inr ⟨anchor, points, rfl⟩)
      | release => exact Or.inr (Or.inr ⟨anchor, points, rfl⟩)
      | cancel => exact Or.inr (Or.inr ⟨anchor, points, rfl⟩)
      | restart => exact Or.inl rfl

/-- An armed session is a new one. -/
theorem after_of_armed {inputs : List Input} (h : ((start settings).after inputs).phase = .armed) :
    (start settings).after inputs = start settings := by
  rcases after_cases settings inputs with hs | ⟨_, _, _, -, -, hs⟩ | ⟨_, _, hs⟩
  · exact hs
  · rw [hs] at h
    cases h
  · rw [hs] at h
    cases h

/-- A session in a drag is in the middle of one that a press of the run began. -/
theorem after_of_dragging {inputs : List Input} (h : ((start settings).after inputs).phase = .dragging anchor) :
    ∃ before during, inputs = before ++ .press (some anchor) :: during ∧ Drags settings before anchor during ∧
      (start settings).after inputs = midDrag settings anchor (positions during) := by
  rcases after_cases settings inputs with hs | ⟨before, anchor', during, hi, hd, hs⟩ | ⟨_, _, hs⟩
  · rw [hs] at h
    cases h
  · rw [hs] at h
    obtain rfl : anchor' = anchor := Phase.dragging.inj h
    exact ⟨before, during, hi, hd, hs⟩
  · rw [hs] at h
    cases h

/-- A committed session is at the end of a drag. -/
theorem after_of_committed {inputs : List Input} (h : ((start settings).after inputs).phase = .committed) :
    ∃ anchor points, (start settings).after inputs = endOfDrag settings anchor points := by
  rcases after_cases settings inputs with hs | ⟨_, _, _, -, -, hs⟩ | hs
  · rw [hs] at h
    cases h
  · rw [hs] at h
    cases h
  · exact hs

/-- A press begins the middle of a drag, and the drag goes on from there. -/
theorem Drags.after_press (h : Drags settings before anchor during) :
    (start settings).after (before ++ [.press (some anchor)]) = midDrag settings anchor [] ∧
      (start settings).after (before ++ .press (some anchor) :: during) = midDrag settings anchor (positions during) := by
  have hp : (start settings).after (before ++ [.press (some anchor)]) = midDrag settings anchor [] := by
    rw [after_concat, after_of_armed h.armed]
    exact congrArg Step.session (press_start h.isFinite)
  refine ⟨hp, ?_⟩
  rw [List.append_cons, after_append, hp]
  exact after_midDrag h.isFinite h.stays

/-! ## Session, tracker and extent -/

/-- After any operations: an armed session is a new one; in a drag the anchor is finite, the drag of the tracker has it folded, and the
extent is that of the last box; a committed session has a cleared tracker. A session is in a drag exactly after a press that began
one and operations that stay in it. There a move on the globe answers what a new tracker answers after the positions of the drag, a
move off the globe answers nothing, and a release gives out the extent of the last box answered, which is the one noted. -/
theorem drag_agrees (settings : Settings) (inputs : List Input) :
    let s := (start settings).after inputs
    (s.phase = .armed → s = start settings) ∧
    (∀ anchor, s.phase = .dragging anchor → anchor.isFinite = true ∧
      (∀ d, s.tracker.drag = some d → d.anchor = anchor.normalize) ∧ s.extent = extentOf settings s.tracker.lastBox) ∧
    (s.phase = .committed → s.tracker = { epsilon := settings.epsilon }) ∧
    (∀ anchor, s.phase = .dragging anchor ↔
      ∃ before during, inputs = before ++ .press (some anchor) :: during ∧ Drags settings before anchor during) ∧
    ∀ before anchor during, inputs = before ++ .press (some anchor) :: during → Drags settings before anchor during →
      let calls := (positions during).map (Tracker.Input.update anchor)
      let answered := boxes (((start settings).after (before ++ [.press (some anchor)])).run during)
      (∀ point, (s.move (some point)).answer =
        (Tracker.after { epsilon := settings.epsilon } calls).answer (.update anchor point)) ∧
      (s.move none).answer = none ∧
      answered = (Tracker.answers { epsilon := settings.epsilon } calls).reduceOption ∧
      s.release.answer = some (extentOf settings answered.getLast?) ∧
      s.release.notes = match answered.getLast? with
        | some box => [.dragFinished box, .boxCommitted box]
        | none => [.endedWithoutBox] := by
  intro s
  refine ⟨after_of_armed, ?_, ?_, ?_, ?_⟩
  · intro anchor h
    obtain ⟨_, during, -, hd, hs⟩ := after_of_dragging h
    rw [show s = _ from hs]
    exact ⟨hd.isFinite, (Tracker.faces_after settings.epsilon hd.isFinite (positions during)).1, rfl⟩
  · intro h
    obtain ⟨_, _, hs⟩ := after_of_committed h
    rw [show s = _ from hs]
    rfl
  · intro anchor
    constructor
    · intro h
      obtain ⟨before, during, hi, hd, -⟩ := after_of_dragging h
      exact ⟨before, during, hi, hd⟩
    · rintro ⟨before, during, rfl, hd⟩
      exact congrArg Session.phase hd.after_press.2
  · rintro before anchor during rfl hd calls answered
    have hs : s = midDrag settings anchor (positions during) := hd.after_press.2
    have hb : answered = (Tracker.answers { epsilon := settings.epsilon } calls).reduceOption := by
      rw [show answered = boxes (((start settings).after (before ++ [.press (some anchor)])).run during) from rfl, hd.after_press.1]
      exact boxes_midDrag hd.isFinite hd.stays
    have hl : (trackerOf settings anchor (positions during)).lastBox = answered.getLast? := by
      rw [hb]
      exact (Tracker.faces_after settings.epsilon hd.isFinite (positions during)).2
    rw [hs, ← hl]
    exact ⟨fun point => (move_midDrag hd.isFinite _ point).2, rfl, hb, rfl, notes_release_midDrag ..⟩

/-- A second drag in a session, with a press and a position off the globe in it, and after a first one that was given up. -/
theorem drag_agrees_second :
    let before := [Input.press (some ⟨0, 3⟩), .move (some ⟨0.1, -3.1⟩), .restart]
    let during := [Input.move (some ⟨0.2, -2⟩), .press (some ⟨0, 3⟩), .move none, .move (some ⟨0.3, -1.5⟩)]
    Drags {} before ⟨0, -1⟩ during ∧
      ((start {}).after (before ++ .press (some ⟨0, -1⟩) :: during)).release.answer =
        some (extentOf {} (boxes (((start {}).after (before ++ [.press (some ⟨0, -1⟩)])).run during)).getLast?) := by
  intro before during
  have drags : Drags {} before ⟨0, -1⟩ during := by
    refine ⟨rfl, by decide, ?_⟩
    intro i hi
    simp only [during, List.mem_cons, List.not_mem_nil, or_false] at hi
    rcases hi with rfl | rfl | rfl | rfl <;> rfl
  exact ⟨drags, ((drag_agrees {} _).2.2.2.2 before ⟨0, -1⟩ during rfl drags).2.2.2.1⟩

end Session

end GlobeDrag
