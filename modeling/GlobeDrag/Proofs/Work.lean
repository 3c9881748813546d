import GlobeDrag.Work

/-!
# Work, one piece after the other

What comes of two pieces of work in a row, and what they note and print: the deeds of the first are kept, and those of the second are
added unless the first failed. Work that prints nothing and begins no drag is called idle, and idle pieces make idle work.

Main statements: `result_bind`, `notes_bind_of_ok`, `texts_bind_of_ok` and `IsIdle.bind`.
-/

namespace GlobeDrag.Work

variable {ε δ α β : Type} {w : Work ε α} {f : α → Work ε β} {a : α} {e : ε}

/-! ## Results -/

/-- The results of two pieces of work are joined like any results. -/
@[simp] theorem result_bind (w : Work ε α) (f : α → Work ε β) : (w >>= f).result = w.result >>= fun a => (f a).result := by
  obtain ⟨deeds, result⟩ := w
  cases result <;> rfl

/-- Work that does nothing has its value as the result. -/
@[simp] theorem result_pure (a : α) : (pure a : Work ε α).result = .ok a :=
  rfl

/-- A result without deeds is kept. -/
@[simp] theorem result_ofExcept (result : Except ε α) : (ofExcept result).result = result :=
  rfl

/-- The result of any number of pieces of work in a row. -/
theorem result_foldlM {σ : Type} (step : σ → α → Work ε σ) (s : σ) (l : List α) :
    (l.foldlM step s).result = l.foldlM (fun s a => (step s a).result) s := by
  induction l generalizing s with
  | nil => rfl
  | cons a l ih =>
    rw [List.foldlM_cons, List.foldlM_cons, result_bind]
    exact congrArg _ (funext ih)

/-- The outcome of work without its notes is the result. -/
theorem map_fst_outcome (w : Work ε α) : w.outcome.map (·.1) = w.result := by
  rw [outcome]
  cases w.result <;> rfl

/-- The outcome of work that does not fail has all its notes. -/
theorem outcome_of_ok (h : w.result = .ok a) : w.outcome = .ok (a, w.notes) := by
  rw [outcome, h]
  rfl

/-! ## Deeds -/

/-- A value is handed on. -/
theorem ofExcept_ok_bind (a : α) (f : α → Work ε β) : (ofExcept (.ok a) >>= f) = f a :=
  rfl

/-- Work that fails leaves nothing to be done after it. -/
theorem deeds_bind_of_error (h : w.result = .error e) (f : α → Work ε β) : (w >>= f).deeds = w.deeds := by
  obtain ⟨deeds, result⟩ := w
  obtain rfl : result = _ := h
  rfl

/-- The deeds of what is done next come after those of work that does not fail. -/
theorem deeds_bind_of_ok (h : w.result = .ok a) (f : α → Work ε β) : (w >>= f).deeds = w.deeds ++ (f a).deeds := by
  obtain ⟨deeds, result⟩ := w
  obtain rfl : result = _ := h
  rfl

/-- Notes are made one piece of work after the other. -/
theorem notes_bind_of_ok (h : w.result = .ok a) (f : α → Work ε β) : (w >>= f).notes = w.notes ++ (f a).notes := by
  rw [notes, deeds_bind_of_ok h, List.filterMap_append]
  rfl

/-- Texts are printed one piece of work after the other. -/
theorem texts_bind_of_ok (h : w.result = .ok a) (f : α → Work ε β) : (w >>= f).texts = w.texts ++ (f a).texts := by
  rw [texts, deeds_bind_of_ok h, List.filterMap_append]
  rfl

/-- Work that prints nothing and begins no drag. -/
structure IsIdle (w : Work ε α) : Prop where
  texts : w.texts = []
  notes : ∀ anchor, .dragStarted anchor ∉ w.notes

/-- Idle work goes on idly if what is done next is idle. -/
theorem IsIdle.bind (hw : w.IsIdle) (hf : ∀ a, w.result = .ok a → (f a).IsIdle) : (w >>= f).IsIdle := by
  cases h : w.result with
  | error e =>
    have texts : (w >>= f).texts = w.texts := congrArg _ (deeds_bind_of_error h f)
    have notes : (w >>= f).notes = w.notes := congrArg _ (deeds_bind_of_error h f)
    exact ⟨texts.trans hw.texts, notes ▸ hw.notes⟩
  | ok a =>
    refine ⟨by rw [texts_bind_of_ok h, hw.texts, (hf a h).texts, List.nil_append], fun anchor hn => ?_⟩
    rw [notes_bind_of_ok h, List.mem_append] at hn
    exact hn.elim (hw.notes anchor) ((hf a h).notes anchor)

/-- Idle work stays so if its error is seen otherwise. -/
theorem IsIdle.mapError (hw : w.IsIdle) (g : ε → δ) : (w.mapError g).IsIdle :=
  ⟨hw.texts, hw.notes⟩

end GlobeDrag.Work
