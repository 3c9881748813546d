import GlobeDrag.Proofs.Session.Events

/-!
# Operations that are ignored

Nothing can be told from a run about the operations that it ignored: left out of it, any of them, the others have the same answers, whoever
draws is told the same, and the session that is left is the same.

Main statements: `handle_of_ignores` (one operation) and `run_without_ignored`.
-/

namespace GlobeDrag

/-- Whether the button may go down. -/
def Phase.isArmed : Phase → Bool
  | armed => true
  | _ => false

/-- Whether a drag is in progress. -/
def Phase.isDragging : Phase → Bool
  | dragging _ => true
  | _ => false

namespace Session

variable {s : Session} {i : Input}

/-- Whether an operation is to be ignored: a press or a move without a finite point, and each operation but a restart in a phase that
has no use for it. -/
def ignores (s : Session) : Input → Bool
  | .press point => !(s.phase.isArmed && point.any Point.isFinite)
  | .move point => !(s.phase.isDragging && point.any Point.isFinite)
  | .release => !s.phase.isDragging
  | .cancel => !s.phase.isDragging
  | .restart => false

/-! ## One operation -/

/-- A press that is to be ignored has no effect. -/
theorem press_of_ignores {point : Option Point} (h : s.ignores (.press point) = true) :
    (s.press point).session = s ∧ (s.press point).answer = false ∧ (s.press point).events = [] := by
  cases hs : s.phase with
  | armed =>
    have off : point.filter Point.isFinite = none := by
      rw [ignores, hs, Phase.isArmed, Bool.true_and, Bool.not_eq_true'] at h
      cases point with
      | none => rfl
      | some p =>
        rw [Option.any_some] at h
        rw [Option.filter_some, h]
        rfl
    simp only [press, hs, off, and_self]
  | dragging anchor => simp only [press, hs, and_self]
  | committed => simp only [press, hs, and_self]

/-- A move that is to be ignored has no effect. -/
theorem move_of_ignores {point : Option Point} (h : s.ignores (.move point) = true) :
    (s.move point).session = s ∧ (s.move point).answer = none ∧ (s.move point).events = [] := by
  cases hs : s.phase with
  | armed => simp only [move, hs, and_self]
  | committed => simp only [move, hs, and_self]
  | dragging anchor =>
    cases point with
    | none => simp only [move, hs, and_self]
    | some current =>
      rw [ignores, hs, Phase.isDragging, Bool.true_and, Option.any_some, Bool.not_eq_true'] at h
      have leftOut : s.tracker.update anchor current = ⟨s.tracker, none, [.positionIgnored anchor current]⟩ :=
        Tracker.update_of_not_isFinite (by rw [h, Bool.and_false])
      simp only [move, hs, leftOut, and_self, and_true]
      rw [← hs]

/-- An operation that is to be ignored leaves the session as it is, answers nothing and tells nothing. -/
theorem handle_of_ignores (h : s.ignores i = true) :
    (s.handle i).session = s ∧ (s.handle i).answer.isVoid = true ∧ (s.handle i).events = [] := by
  cases i with
  | press point =>
    obtain ⟨session, answer, events⟩ := press_of_ignores h
    exact ⟨session, by rw [handle, Step.map, answer]; rfl, events⟩
  | move point =>
    obtain ⟨session, answer, events⟩ := move_of_ignores h
    exact ⟨session, by rw [handle, Step.map, answer]; rfl, events⟩
  | release =>
    rw [ignores, Bool.not_eq_true'] at h
    rw [handle, release]
    cases hs : s.phase with
    | dragging anchor => rw [hs] at h; cases h
    | armed => exact ⟨rfl, rfl, rfl⟩
    | committed => exact ⟨rfl, rfl, rfl⟩
  | cancel =>
    rw [ignores, Bool.not_eq_true'] at h
    rw [handle, Session.cancel]
    cases hs : s.phase with
    | dragging anchor => rw [hs] at h; cases h
    | armed => exact ⟨rfl, rfl, rfl⟩
    | committed => exact ⟨rfl, rfl, rfl⟩
  | restart => cases h

/-! ## Runs -/

/-- A list without what stands at some positions. -/
def without {α : Type} (omitted : ℕ → Bool) : List α → List α
  | [] => []
  | x :: rest =>
    let others := without (fun k => omitted (k + 1)) rest
    if omitted 0 then others else x :: others

/-- The operations at some positions of a run are to be ignored as they come. -/
def IgnoresAt (s : Session) (inputs : List Input) (omitted : ℕ → Bool) : Prop :=
  ∀ k i, inputs[k]? = some i → omitted k = true → (s.after (inputs.take k)).ignores i = true

variable {inputs rest : List Input} {omitted : ℕ → Bool}

theorem without_cons {α : Type} (omitted : ℕ → Bool) (x : α) (rest : List α) :
    without omitted (x :: rest) = (if omitted 0 then [] else [x]) ++ without (fun k => omitted (k + 1)) rest := by
  rw [without]
  split <;> rfl

/-- The first operation is ignored if it is left out. -/
theorem IgnoresAt.head (h : s.IgnoresAt (i :: rest) omitted) (h0 : omitted 0 = true) : s.ignores i = true :=
  h 0 i rfl h0

/-- So are the others, by the session after it. -/
theorem IgnoresAt.tail (h : s.IgnoresAt (i :: rest) omitted) :
    (s.handle i).session.IgnoresAt rest fun k => omitted (k + 1) :=
  fun k => h (k + 1)

theorem told_run_cons (s : Session) (i : Input) (rest : List Input) :
    told (s.run (i :: rest)) = (s.handle i).events ++ told ((s.handle i).session.run rest) :=
  List.flatMap_cons

/-- Operations that are to be ignored where they stand in a run can be left out of it: the steps of the others are the same, hence their
answers, whoever draws is told the same, and the session after the run is the same, hence its phase, its extent and whether its box
wraps. -/
theorem run_without_ignored (ignored : s.IgnoresAt inputs omitted) :
    s.run (without omitted inputs) = without omitted (s.run inputs) ∧
      told (s.run (without omitted inputs)) = told (s.run inputs) ∧ s.after (without omitted inputs) = s.after inputs := by
  induction inputs generalizing s omitted with
  | nil => exact ⟨rfl, rfl, rfl⟩
  | cons i rest ih =>
    obtain ⟨steps, events, session⟩ := ih ignored.tail
    rw [told_run_cons, run, without_cons, without_cons, ← steps, ← events]
    cases h0 : omitted 0 with
    | true =>
      obtain ⟨same, -, silent⟩ := handle_of_ignores (ignored.head h0)
      rw [same] at session ⊢
      rw [silent]
      refine ⟨rfl, rfl, session.trans ?_⟩
      exact (congrArg (after · rest) same).symm
    | false => exact ⟨rfl, rfl, session⟩

/-- A drag over the date line in which the pointer leaves the globe, the button goes down again and a position is not finite. -/
def strayDrag : List Input :=
  [.press none, .press (some ⟨0, 3⟩), .move none, .move (some ⟨0.1, -3.1⟩), .press (some ⟨0, 0⟩), .move (some ⟨0, 1 / 0⟩), .release,
    .move (some ⟨0.2, -3⟩), .cancel]

/-- Its press, its move on the globe and its release are all that counts. -/
theorem strayDrag_without_ignored :
    let omitted := fun k => !([1, 3, 6].contains k)
    (start {}).IgnoresAt strayDrag omitted ∧
      without omitted strayDrag = [.press (some ⟨0, 3⟩), .move (some ⟨0.1, -3.1⟩), .release] ∧
      (start {}).run (without omitted strayDrag) = without omitted ((start {}).run strayDrag) ∧
      (start {}).after (without omitted strayDrag) = (start {}).after strayDrag := by
  intro omitted
  have all : ∀ k : Fin 9, omitted k = true → ((start {}).after (strayDrag.take k)).ignores (strayDrag.get k) = true := by
    decide +kernel
  have ignored : (start {}).IgnoresAt strayDrag omitted := by
    intro k i hi hk
    obtain ⟨lt, rfl⟩ := List.getElem?_eq_some_iff.1 hi
    exact all ⟨k, lt⟩ hk
  obtain ⟨steps, -, session⟩ := run_without_ignored ignored
  exact ⟨ignored, rfl, steps, session⟩

end Session

end GlobeDrag
