import GlobeDrag.Text.Blank
import Mathlib.Data.List.DropRight

/-!
# Texts between blanks

Trimming finds what stands between the blanks at the two ends of a text.

Main statements: `encloses_trim` (a text is its trimmed text between blanks) and `trim_of_encloses` (the only one without blanks).
-/

namespace GlobeDrag.Text

variable {cs body : List Char}

/-- `cs` is `body` with any number of blanks in front and behind. -/
def Encloses (cs body : List Char) : Prop :=
  ∃ before after, cs = before ++ (body ++ after) ∧ (∀ c ∈ before, isBlank c = true) ∧ ∀ c ∈ after, isBlank c = true

/-- The characters of ASCII behind the space are not blank. -/
theorem not_blank_of_graphic {c : Char} (h : 0x20 < c.toNat) (h' : c.toNat < 0x80) : isBlank c = false := by
  simp only [isBlank, Bool.or_eq_false_iff, Bool.and_eq_false_iff, decide_eq_false_iff_not, beq_eq_false_iff_ne]
  omega

/-- Trimming leaves what the blanks enclose. -/
theorem encloses_trim (cs : List Char) : Encloses cs (trim cs) := by
  refine ⟨cs.takeWhile isBlank, (cs.dropWhile isBlank).rtakeWhile isBlank, ?_, ?_, ?_⟩
  · calc cs = cs.takeWhile isBlank ++ cs.dropWhile isBlank := List.takeWhile_append_dropWhile.symm
      _ = cs.takeWhile isBlank ++ (trim cs ++ (cs.dropWhile isBlank).rtakeWhile isBlank) :=
        congrArg _ List.rdropWhile_append_rtakeWhile.symm
  · exact fun c hc => List.mem_takeWhile_imp hc
  · exact fun c hc => List.mem_rtakeWhile_imp hc

/-- Blanks behind a text are cut off. -/
theorem trimEnd_append {after : List Char} (h : ∀ c ∈ after, isBlank c = true) : trimEnd (cs ++ after) = trimEnd cs := by
  rw [trimEnd, trimEnd, List.reverse_append, List.dropWhile_append_of_pos]
  simpa using h

/-- A text without blanks has nothing to cut off at its end. -/
theorem trimEnd_of_not_blank (h : ∀ c ∈ cs, isBlank c = false) : trimEnd cs = cs := by
  refine List.rdropWhile_eq_self_iff.2 fun ne => ?_
  rw [h _ (List.getLast_mem ne)]
  exact Bool.false_ne_true

/-- A body without blanks is what trimming leaves. -/
theorem trim_of_encloses (h : Encloses cs body) (clean : ∀ c ∈ body, isBlank c = false) : trim cs = body := by
  obtain ⟨before, after, rfl, hb, ha⟩ := h
  rw [trim, List.dropWhile_append_of_pos hb]
  cases body with
  | nil =>
    have none : ([] ++ after).dropWhile isBlank = [] := List.dropWhile_eq_nil_iff.2 ha
    rw [none]
    rfl
  | cons c r =>
    have first : isBlank c = false := clean c List.mem_cons_self
    have kept : (c :: r ++ after).dropWhile isBlank = c :: r ++ after := List.dropWhile_cons_of_neg (by simp [first])
    rw [kept, trimEnd_append ha, trimEnd_of_not_blank clean]

/-- A text without blanks stands between blanks exactly if it is what trimming leaves. -/
theorem exists_encloses_iff {p : List Char → Prop} (clean : ∀ body, p body → ∀ c ∈ body, isBlank c = false) :
    (∃ body, Encloses cs body ∧ p body) ↔ p (trim cs) := by
  constructor
  · rintro ⟨body, h, hp⟩
    rwa [trim_of_encloses h (clean body hp)]
  · exact fun hp => ⟨trim cs, encloses_trim cs, hp⟩

end GlobeDrag.Text
