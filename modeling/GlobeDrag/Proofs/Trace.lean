import GlobeDrag.Proofs.Session
import GlobeDrag.Proofs.Work
import GlobeDrag.Trace

/-!
# The order of what is drawn

The extent that is drawn is in the same order as the box it came from, and in a replay every frame is marked as wrapping exactly if
the bounds that it shows say so.

Main statements: `replay_frames` (the frames of a replay come from drawn events) and `order_of_drawn`.
-/

namespace GlobeDrag

open Binary64

namespace Session

/-- The extent of a drawn event is read back in the order of its box. -/
theorem Drawn.order {settings : Settings} (valid : settings.validate = .ok ()) {box : Rectangle} {extent : Extent}
    (h : Drawn settings box extent) :
    (∃ r, extent.rectangle? = some r ∧ r.crossesDateLine = box.crossesDateLine) ∧
      (∃ south north, extent.south = some south ∧ extent.north = some north ∧ south < north) ∧
      ∃ east west, extent.east = some east ∧ extent.west = some west ∧ (box.crossesDateLine = true ↔ east < west) := by
  obtain ⟨rfl, hd, hf, anchor, current, crossing, ha, hc, spans⟩ := h
  obtain ⟨-, -, hp⟩ := Settings.of_validate valid
  have hr := Extent.numbers_of_isFinite hf
  obtain ⟨h1, h2⟩ := Extent.east_lt_west_iff hp hr hd
  exact ⟨⟨_, (Extent.exists_restoredBox hd).1, h1⟩, ⟨_, _, rfl, rfl, (Extent.south_lt_north hp hr hd spans.south_le_north).2⟩,
    _, _, rfl, rfl, h2.symm⟩

end Session

namespace Trace

open Session (Drawn)

variable {settings : Settings}

/-- Points are run without failing, and reported is what the events drew and what the release gave. -/
theorem result_replayPoints (settings : Settings) (anchor : Point) (moves : List (Option Point)) :
    let pressed := (Session.start settings).press (some anchor)
    let steps := pressed.session.run (moves.map .move)
    (replayPoints settings anchor moves).result = .ok
      ⟨steps.zipIdx.flatMap fun (s, i) => frames i s.events,
        (steps.getLast?.elim pressed.session (·.session)).release.answer.getD .empty⟩ :=
  rfl

/-- A trace whose positions are points is run. -/
theorem replay_of_points {trace : Trace} {anchor : Point} {moves : List (Option Point)} (h : trace.points = .ok (anchor, moves))
    (settings : Settings) : trace.replay settings = (replayPoints settings anchor moves).outcome := by
  rw [replay, replayWork, h, Work.ofExcept_ok_bind]

/-- A frame tells of a drawn event. -/
theorem mem_frames {step : ℕ} {events : List Event} {frame : Frame} (h : frame ∈ frames step events) :
    ∃ box extent, .drawn box extent ∈ events ∧ frame = ⟨step, box.crossesDateLine, extent⟩ := by
  obtain ⟨event, he, hf⟩ := List.mem_filterMap.1 h
  cases event with
  | drawn box extent => exact ⟨box, extent, he, (Option.some.inj hf).symm⟩
  | _ => cases hf

/-- The frames of a replay come from the drawn events of a session. -/
theorem replay_frames (valid : settings.validate = .ok ()) {trace : Trace} {report : Report} {notes : List Note}
    (h : replay settings trace = .ok (report, notes)) {frame : Frame} (hf : frame ∈ report.drawn) :
    ∃ box, Drawn settings box frame.extent ∧ frame.crossing = box.crossesDateLine := by
  cases hp : trace.points with
  | error e =>
    rw [replay, replayWork, hp] at h
    cases h
  | ok points =>
    rw [replay_of_points hp, Work.outcome, result_replayPoints] at h
    cases h
    obtain ⟨⟨st, i⟩, hst, hframe⟩ := List.mem_flatMap.1 hf
    obtain ⟨box, extent, he, rfl⟩ := mem_frames hframe
    obtain ⟨ht, hset⟩ := (Session.tuned_start settings).handle (.press (some points.1))
    refine ⟨box, ?_, rfl⟩
    have hd := ht.drawn_run (hset ▸ valid) (List.fst_mem_of_mem_zipIdx hst) he
    rwa [hset] at hd

end Trace

/-- With settings that can be used, what a session draws is in order: the extent is read back as wrapping exactly if the box does, its
southern bound is below its northern one, and each frame of a replay is marked as wrapping exactly if its eastern bound is below its
western one. -/
theorem order_of_drawn {settings : Settings} (valid : settings.validate = .ok ()) :
    (∀ inputs, ∀ st ∈ (Session.start settings).run inputs, ∀ box extent, .drawn box extent ∈ st.events →
      (∃ r, extent.rectangle? = some r ∧ r.crossesDateLine = box.crossesDateLine) ∧
        ∃ south north, extent.south = some south ∧ extent.north = some north ∧ south < north) ∧
    ∀ trace report notes, Trace.replay settings trace = .ok (report, notes) → ∀ frame ∈ report.drawn,
      ∃ east west, frame.extent.east = some east ∧ frame.extent.west = some west ∧ (frame.crossing = true ↔ east < west) := by
  constructor
  · intro inputs st hst box extent he
    obtain ⟨h1, h2, -⟩ := ((Session.tuned_start settings).drawn_run valid hst he).order valid
    exact ⟨h1, h2⟩
  · intro trace report notes h frame hf
    obtain ⟨box, hd, hc⟩ := Trace.replay_frames valid h hf
    rw [hc]
    exact (hd.order valid).2.2

/-- The default settings are such, and a drag over the date line can be replayed and leaves two frames. -/
theorem order_of_drawn_default :
    ({} : Settings).validate = .ok () ∧ ∃ report notes,
      Trace.replay {} ⟨⟨0, 170⟩, [some ⟨1, 175⟩, none, some ⟨2, -175⟩]⟩ = .ok (report, notes) ∧ report.drawn.length = 2 ∧
        ∀ frame ∈ report.drawn, ∃ east west,
          frame.extent.east = some east ∧ frame.extent.west = some west ∧ (frame.crossing = true ↔ east < west) := by
  refine ⟨rfl, ?_⟩
  have replayed : (Trace.replay {} ⟨⟨0, 170⟩, [some ⟨1, 175⟩, none, some ⟨2, -175⟩]⟩).toOption.any
      (fun out => out.1.drawn.length = 2) = true := by decide +kernel
  cases h : Trace.replay {} ⟨⟨0, 170⟩, [some ⟨1, 175⟩, none, some ⟨2, -175⟩]⟩ with
  | error e =>
    rw [h] at replayed
    cases replayed
  | ok out =>
    rw [h] at replayed
    exact ⟨out.1, out.2, rfl, of_decide_eq_true replayed, (order_of_drawn rfl).2 _ _ _ h⟩

end GlobeDrag
