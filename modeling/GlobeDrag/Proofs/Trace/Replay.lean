import GlobeDrag.Proofs.Rectangle.Reach
import GlobeDrag.Proofs.Session.Lifecycle
import GlobeDrag.Proofs.Trace

/-!
# What a replay produces

The frames and the extent of a replay are read off the boxes that a new tracker gives for the positions of the trace. Moves off the globe
take part in the count of the moves and in nothing else.

Main statements: `drawn_midDrag` (the frames of a run), `points_of_inRange` (the points of a trace) and `replay_eq_reference`, which joins
them.
-/

namespace GlobeDrag

namespace Session

/-- The session after the last step of a run, or before a run without steps, is the one that the run leaves. -/
theorem getLast?_run (s : Session) (inputs : List Input) :
    ((s.run inputs).getLast?.elim s fun st => st.session) = s.after inputs := by
  induction inputs using List.reverseRecOn with
  | nil => rfl
  | append_singleton l i _ => rw [run_concat, List.getLast?_concat, after_concat, Option.elim_some]

theorem length_run (s : Session) (inputs : List Input) : (s.run inputs).length = inputs.length := by
  induction inputs generalizing s with
  | nil => rfl
  | cons i rest ih => exact congrArg (· + 1) (ih _)

/-- Moves leave a drag in the middle, with the positions among them. -/
theorem after_moves {anchor : Point} (ha : anchor.isFinite = true) (settings : Settings) (moves : List (Option Point)) :
    (midDrag settings anchor []).after (moves.map .move) = midDrag settings anchor moves.reduceOption := by
  have stays : ∀ i ∈ moves.map Input.move, i.staysInDrag = true := by
    intro i hi
    obtain ⟨_, -, rfl⟩ := List.mem_map.1 hi
    rfl
  rw [after_midDrag ha stays, positions, List.filterMap_map]
  rfl

end Session

namespace Trace

open Session

/-! ## The reference -/

/-- The box of a move: what a new tracker gives for its position after the given ones. A move off the globe has none. -/
def boxAfter (settings : Settings) (anchor : Point) (points : List Point) (m : Option Point) : Option Rectangle :=
  m.bind fun p => ((trackerOf settings anchor points).update anchor p).box

/-- The box of the move with the given index, after the positions of the moves before it. -/
def boxAt (settings : Settings) (anchor : Point) (moves : List (Option Point)) (i : ℕ) : Option Rectangle :=
  boxAfter settings anchor (moves.take i).reduceOption moves[i]?.join

/-- The frame that shows a box, unless its extent is too small to draw. -/
def frameOf (settings : Settings) (step : ℕ) (box : Rectangle) : Option Frame :=
  let extent := Extent.ofRectangle box settings.precision
  if extent.isDrawable then some ⟨step, box.crossesDateLine, extent⟩ else none

/-- The frame of the move with the given index. -/
def frameAt (settings : Settings) (anchor : Point) (moves : List (Option Point)) (i : ℕ) : Option Frame :=
  (boxAt settings anchor moves i).bind (frameOf settings i)

variable {settings : Settings} {anchor : Point} {moves : List (Option Point)}

theorem reduceOption_snoc {α : Type} (l : List (Option α)) (x : Option α) :
    (l ++ [x]).reduceOption = l.reduceOption ++ x.toList := by
  rw [← List.concat_eq_append, List.reduceOption_concat]

/-- Later moves do not change a box. -/
theorem boxAt_append_of_lt (settings : Settings) (anchor : Point) {l : List (Option Point)} (m : List (Option Point)) {i : ℕ}
    (h : i < l.length) : boxAt settings anchor (l ++ m) i = boxAt settings anchor l i := by
  rw [boxAt, boxAt, List.getElem?_append_left h, List.take_append_of_le_length h.le]

/-- The box of the last move. -/
theorem boxAt_concat (settings : Settings) (anchor : Point) (l : List (Option Point)) (m : Option Point) :
    boxAt settings anchor (l ++ [m]) l.length = boxAfter settings anchor l.reduceOption m := by
  rw [boxAt, List.getElem?_concat_length, List.take_left]
  rfl

/-- One more move adds what goes by its box. -/
theorem filterMap_boxAt_concat {α : Type} (settings : Settings) (anchor : Point) (l : List (Option Point)) (m : Option Point)
    (f : ℕ → Rectangle → Option α) :
    (List.range (l ++ [m]).length).filterMap (fun i => (boxAt settings anchor (l ++ [m]) i).bind (f i)) =
      (List.range l.length).filterMap (fun i => (boxAt settings anchor l i).bind (f i)) ++
        ((boxAfter settings anchor l.reduceOption m).bind (f l.length)).toList := by
  rw [List.length_append, List.length_singleton, List.range_succ, List.filterMap_append]
  congr 1
  · refine List.filterMap_congr fun i hi => ?_
    rw [boxAt_append_of_lt settings anchor [m] (List.mem_range.1 hi)]
  · rw [List.filterMap_cons, List.filterMap_nil, boxAt_concat]
    cases (boxAfter settings anchor l.reduceOption m).bind (f l.length) <;> rfl

/-- The boxes of the moves are those that a new tracker gives for the positions among them. -/
theorem reference_eq (settings : Settings) (anchor : Point) (moves : List (Option Point)) :
    (Tracker.answers { epsilon := settings.epsilon } (moves.reduceOption.map (.update anchor))).reduceOption =
      (List.range moves.length).filterMap (boxAt settings anchor moves) := by
  have all (moves : List (Option Point)) : (List.range moves.length).filterMap (boxAt settings anchor moves) =
      (List.range moves.length).filterMap fun i => (boxAt settings anchor moves i).bind some := by
    simp only [Option.bind_fun_some]
  rw [all]
  induction moves using List.reverseRecOn with
  | nil => rfl
  | append_singleton l m ih =>
    rw [filterMap_boxAt_concat, ← ih, Option.bind_fun_some, reduceOption_snoc]
    cases m with
    | none => rw [boxAfter, Option.toList_none, List.append_nil, Option.bind_none, Option.toList_none, List.append_nil]
    | some p =>
      rw [Option.toList_some, List.map_append, List.map_singleton, Tracker.answers_concat, reduceOption_snoc]
      rfl

/-! ## The frames of a run -/

/-- A move on the globe draws the frame of its box. -/
theorem frames_move {s : Session} (hs : s.phase = .dragging anchor) (step : ℕ) (p : Point) :
    frames step (s.move (some p)).events = ((s.tracker.update anchor p).box.bind (frameOf s.settings step)).toList := by
  simp only [move, hs]
  cases (s.tracker.update anchor p).box with
  | none => rfl
  | some box =>
    dsimp only [Option.bind_some, frameOf]
    cases (Extent.ofRectangle box s.settings.precision).isDrawable <;> rfl

/-- A move in a drag draws the frame of its box, and a move off the globe draws none. -/
theorem frames_midDrag (settings : Settings) (anchor : Point) (points : List Point) (step : ℕ) (m : Option Point) :
    frames step ((midDrag settings anchor points).handle (.move m)).events =
      ((boxAfter settings anchor points m).bind (frameOf settings step)).toList := by
  cases m with
  | none => rfl
  | some p => exact frames_move rfl step p

/-- The moves of a drag draw the frames of their boxes, in the order of the moves. -/
theorem drawn_midDrag (ha : anchor.isFinite = true) (moves : List (Option Point)) :
    (((midDrag settings anchor []).run (moves.map .move)).zipIdx.flatMap fun (s, i) => frames i s.events) =
      (List.range moves.length).filterMap (frameAt settings anchor moves) := by
  induction moves using List.reverseRecOn with
  | nil => rfl
  | append_singleton l m ih =>
    rw [List.map_append, List.map_singleton, run_concat, List.zipIdx_append, List.flatMap_append, ih, Nat.zero_add, length_run,
      List.length_map, List.zipIdx_singleton, List.flatMap_singleton, after_moves ha]
    refine (congrArg (_ ++ ·) (frames_midDrag settings anchor l.reduceOption l.length m)).trans ?_
    exact (filterMap_boxAt_concat settings anchor l m (frameOf settings)).symm

/-! ## Frames and boxes -/

/-- A box is a frame if its extent can be drawn. -/
theorem frameOf_eq_some {step : ℕ} {box : Rectangle} {frame : Frame} :
    frameOf settings step box = some frame ↔ frame = ⟨step, box.crossesDateLine, .ofRectangle box settings.precision⟩ ∧
      (Extent.ofRectangle box settings.precision).isDrawable = true := by
  rw [frameOf]
  split
  · next h => exact ⟨fun he => ⟨(Option.some.inj he).symm, h⟩, fun he => congrArg some he.1.symm⟩
  · next h => exact iff_of_false (by simp) fun he => h he.2

/-- A frame is of its own step. -/
theorem step_of_frameAt {i : ℕ} {frame : Frame} (h : frameAt settings anchor moves i = some frame) : frame.step = i := by
  obtain ⟨box, -, hf⟩ := Option.bind_eq_some_iff.1 h
  rw [(frameOf_eq_some.1 hf).1]

/-- Only moves have a box. -/
theorem lt_length_of_boxAt {i : ℕ} {box : Rectangle} (h : boxAt settings anchor moves i = some box) : i < moves.length := by
  obtain ⟨_, hp, -⟩ := Option.bind_eq_some_iff.1 h
  exact (List.getElem?_eq_some_iff.1 (Option.join_eq_some_iff.1 hp)).1

/-- A frame is drawn exactly if it is the one of the move that it names. -/
theorem mem_drawn {frame : Frame} :
    frame ∈ (List.range moves.length).filterMap (frameAt settings anchor moves) ↔
      frameAt settings anchor moves frame.step = some frame := by
  rw [List.mem_filterMap]
  constructor
  · rintro ⟨i, -, h⟩
    rwa [step_of_frameAt h]
  · intro h
    obtain ⟨box, hb, -⟩ := Option.bind_eq_some_iff.1 h
    exact ⟨_, List.mem_range.2 (lt_length_of_boxAt hb), h⟩

/-- Frames are drawn in the order of their moves. -/
theorem pairwise_drawn :
    ((List.range moves.length).filterMap (frameAt settings anchor moves)).Pairwise (·.step < ·.step) := by
  rw [List.pairwise_filterMap]
  refine List.pairwise_lt_range.imp ?_
  intro i j hij f hf g hg
  rwa [step_of_frameAt hf, step_of_frameAt hg]

/-- If the last of the boxes is large enough to draw, it is shown by the last frame. -/
theorem getLast?_drawn {n : ℕ} {box : Rectangle} (last : ((List.range n).filterMap (boxAt settings anchor moves)).getLast? = some box)
    (drawable : (Extent.ofRectangle box settings.precision).isDrawable = true) :
    (((List.range n).filterMap (frameAt settings anchor moves)).getLast?.map fun f => f.extent) =
      some (.ofRectangle box settings.precision) := by
  induction n with
  | zero => cases last
  | succ n ih =>
    rw [List.range_succ, List.filterMap_append, List.getLast?_append, List.filterMap_cons, List.filterMap_nil] at last ⊢
    cases hb : boxAt settings anchor moves n with
    | none =>
      rw [hb] at last
      rw [frameAt, hb]
      exact ih last
    | some b =>
      rw [hb] at last
      obtain rfl : b = box := Option.some.inj last
      have frame : frameAt settings anchor moves n = some ⟨n, b.crossesDateLine, .ofRectangle b settings.precision⟩ := by
        rw [frameAt, hb]
        exact frameOf_eq_some.2 ⟨rfl, drawable⟩
      rw [frame]
      rfl

end Trace

/-! ## Points of a trace -/

/-- A recorded position within the ranges of its degrees. -/
def TracePoint.InRange (p : TracePoint) : Prop :=
  (-90 ≤ p.lat ∧ p.lat ≤ 90) ∧ -180 ≤ p.lon ∧ p.lon ≤ 180

instance (p : TracePoint) : Decidable p.InRange :=
  inferInstanceAs (Decidable (_ ∧ _))

/-- A recorded position in radians. -/
def TracePoint.position (p : TracePoint) : Point :=
  ⟨Angle.toRadians p.lat, Point.longitudeOfDegrees p.lon⟩

/-- A position in range is a point. -/
theorem TracePoint.InRange.point_eq {p : TracePoint} (h : p.InRange) : p.point = .ok p.position :=
  Point.ofDegrees_eq_ok.2 ⟨h.1, h.2, rfl⟩

/-- That point is finite. -/
theorem TracePoint.InRange.isFinite {p : TracePoint} (h : p.InRange) : p.position.isFinite = true :=
  (Point.FromDegrees.onGlobe_normalize ⟨p.lat, p.lon, h.point_eq⟩).1

namespace Trace

open Session

/-- A trace whose positions are all in range. -/
structure InRange (trace : Trace) : Prop where
  anchor : trace.anchor.InRange
  moves : ∀ m ∈ trace.moves, ∀ p ∈ m, p.InRange

/-- Moves in range are points, or off the globe. -/
theorem mapM_movePoint {moves : List (Option TracePoint)} (h : ∀ m ∈ moves, ∀ p ∈ m, p.InRange) :
    moves.mapM movePoint = .ok (moves.map (Option.map TracePoint.position)) := by
  induction moves with
  | nil => rfl
  | cons m rest ih =>
    obtain ⟨hm, hrest⟩ := List.forall_mem_cons.1 h
    have point : movePoint m = .ok (m.map TracePoint.position) := by
      cases m with
      | none => rfl
      | some p =>
        rw [movePoint, (hm p rfl).point_eq]
        rfl
    rw [List.mapM_cons, point, ih hrest]
    rfl

/-- The points of a trace whose positions are in range. -/
theorem points_of_inRange {trace : Trace} (h : trace.InRange) :
    trace.points = .ok (trace.anchor.position, trace.moves.map (Option.map TracePoint.position)) := by
  rw [points, h.anchor.point_eq, mapM_movePoint h.moves]
  rfl

/-! ## The report -/

/-- The report of a replay, read off the boxes of the moves. -/
theorem replayPoints_eq {anchor : Point} (ha : anchor.isFinite = true) (settings : Settings) (moves : List (Option Point)) :
    (replayPoints settings anchor moves).result = .ok
      ⟨(List.range moves.length).filterMap (frameAt settings anchor moves),
        extentOf settings ((List.range moves.length).filterMap (boxAt settings anchor moves)).getLast?⟩ := by
  rw [result_replayPoints, press_start ha]
  dsimp only
  rw [drawn_midDrag ha, getLast?_run, after_moves ha, ← reference_eq,
    ← (Tracker.faces_after settings.epsilon ha moves.reduceOption).2]
  rfl

/-- A trace whose positions are in range is replayed. The extent committed is the one of the last box that a new tracker gives for the
positions of the moves in turn, and empty if it gives none. The frames drawn are in the order of the moves, and there is one for each move
with a box large enough to draw, which shows this box. If the last box is large enough to draw, the last frame shows what is committed. -/
theorem replay_eq_reference (settings : Settings) {trace : Trace} (inRange : trace.InRange) :
    let anchor := trace.anchor.position
    let moves := trace.moves.map (Option.map TracePoint.position)
    let reference := (Tracker.answers { epsilon := settings.epsilon } (moves.reduceOption.map (.update anchor))).reduceOption
    ∃ report notes, trace.replay settings = .ok (report, notes) ∧
      report.committed = extentOf settings reference.getLast? ∧
      report.drawn.Pairwise (·.step < ·.step) ∧
      (∀ frame, frame ∈ report.drawn ↔ ∃ box, boxAt settings anchor moves frame.step = some box ∧
        (Extent.ofRectangle box settings.precision).isDrawable = true ∧ frame.crossing = box.crossesDateLine ∧
        frame.extent = .ofRectangle box settings.precision) ∧
      ∀ box, reference.getLast? = some box → (Extent.ofRectangle box settings.precision).isDrawable = true →
        report.drawn.getLast?.map (fun frame => frame.extent) = some report.committed := by
  intro anchor moves reference
  have ha : anchor.isFinite = true := inRange.anchor.isFinite
  have href : reference = (List.range moves.length).filterMap (boxAt settings anchor moves) := reference_eq settings anchor moves
  have ran := replayPoints_eq ha settings moves
  rw [← href] at ran
  have replayed := (replay_of_points (points_of_inRange inRange) settings).trans (Work.outcome_of_ok ran)
  refine ⟨_, _, replayed, rfl, pairwise_drawn, fun frame => ?_, fun box last drawable => ?_⟩
  · rw [mem_drawn, frameAt, Option.bind_eq_some_iff]
    refine exists_congr fun box => and_congr_right fun _ => ?_
    rw [frameOf_eq_some]
    constructor
    · rintro ⟨h, drawable⟩
      rw [h]
      exact ⟨drawable, rfl, rfl⟩
    · rintro ⟨drawable, crossing, extent⟩
      exact ⟨by rw [← crossing, ← extent], drawable⟩
  · rw [last]
    rw [href] at last
    exact getLast?_drawn last drawable

/-- A drag over the date line with a move off the globe. -/
theorem replay_eq_reference_over_date_line :
    let trace : Trace := ⟨⟨0, 170⟩, [some ⟨1, 175⟩, none, some ⟨2, -175⟩]⟩
    trace.InRange ∧ ∃ report notes, trace.replay {} = .ok (report, notes) ∧ report.drawn.Pairwise (·.step < ·.step) ∧
      report.drawn.getLast?.map (fun frame => frame.extent) = some report.committed := by
  intro trace
  have inRange : trace.InRange := ⟨by decide +kernel, by decide +kernel⟩
  obtain ⟨report, notes, replayed, -, order, -, last⟩ := replay_eq_reference {} inRange
  have large : ((Tracker.answers { epsilon := defaultEpsilon } ((trace.moves.map (Option.map TracePoint.position)).reduceOption.map
      (.update trace.anchor.position))).reduceOption.getLast?.any fun box =>
        (Extent.ofRectangle box defaultPrecision).isDrawable) = true := by decide +kernel
  obtain ⟨box, hbox, drawable⟩ := (Option.any_eq_true _ _).1 large
  exact ⟨inRange, report, notes, replayed, order, last box hbox drawable⟩

end Trace

end GlobeDrag
