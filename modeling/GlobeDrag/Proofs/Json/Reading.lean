import GlobeDrag.Proofs.Json.Value

/-!
# What stands between values

Colons, commas and brackets of a text, whatever blanks are around them: each of them leaves a text of the tokens behind it. `Yields` says of a
reader what it makes of a text.

Main statements: `Yields.bind` (one reader after the other), `exists_nextElement_more`, `exists_nextElement_closed` and their counterparts
for members.
-/

namespace GlobeDrag.Json

/-! ## Results -/

/-- A reader gives a value, and `rest` holds of what is left of the text; or it refuses the text where there is no value. -/
inductive Yields {α : Type} (rest : List Char → Prop) : Except Failure (α × List Char) → Option α → Prop
  | ok {x : α} {r : List Char} (h : rest r) : Yields rest (.ok (x, r)) (some x)
  | error {e : Failure} : Yields rest (.error e) none

section yields

variable {α β : Type} {rest rest' : List Char → Prop} {result : Except Failure (α × List Char)} {meaning : Option α}

/-- A result that is converted yields the meaning that is converted. -/
theorem Yields.map (h : Yields rest result meaning) (g : α → β) :
    Yields rest (result.map fun (x, r) => (g x, r)) (meaning.map g) := by
  cases h with
  | ok h => exact .ok h
  | error => exact .error

/-- Reading one thing after another yields one meaning after another. -/
theorem Yields.bind {next : α × List Char → Except Failure (β × List Char)} {after : α → Option β} (h : Yields rest result meaning)
    (hn : ∀ x r, rest r → Yields rest' (next (x, r)) (after x)) : Yields rest' (result >>= next) (meaning >>= after) := by
  cases h with
  | ok h => exact hn _ _ h
  | error => exact .error

end yields

/-! ## Colons -/

variable {s : List Char} {ts : List (List Char)} {gs : List (List (List Char))} {k : List Piece} {v : Value} {first : Bool}

/-- A colon is read with the blanks before it. -/
theorem exists_colon (h : Spaced ([':'] :: ts) s) : ∃ r, Spaced ts r ∧ colon s = .ok r := by
  obtain ⟨r, rest, skip⟩ := h.exists_skipSpace (by decide)
  refine ⟨r, rest, ?_⟩
  rw [colon, skip]
  rfl

/-- What is left of the groups between two brackets: the first one has no comma in front. -/
def remaining (first : Bool) (gs : List (List (List Char))) : List (List Char) :=
  if first then separated gs else continuing gs

theorem remaining_nil (first : Bool) : remaining first [] = [] := by
  cases first <;> rfl

/-! ## Lists -/

/-- A list ends at its closing bracket. -/
theorem exists_nextElement_closed (first : Bool) (h : Spaced ([']'] :: ts) s) :
    ∃ r, Spaced ts r ∧ nextElement first s = .ok (.closed r) := by
  obtain ⟨r, rest, skip⟩ := h.exists_skipSpace (by decide)
  refine ⟨r, rest, ?_⟩
  rw [nextElement, skip]
  rfl

/-- In front of an element, and of its comma unless it is the first one, the list goes on with the element. -/
theorem exists_nextElement_more (h : Spaced (remaining first (v.tokens :: gs) ++ ts) s) :
    ∃ r, Spaced (v.tokens ++ (continuing gs ++ ts)) r ∧ nextElement first s = .ok (.more r) := by
  cases first with
  | true =>
    rw [remaining, if_pos rfl, separated_cons, List.append_assoc] at h
    obtain ⟨c, r, begins, skip, rest⟩ := h.exists_value
    refine ⟨_, rest, ?_⟩
    unfold nextElement
    rw [skip]
    simp only
    rw [if_neg begins.ne_of_closing, if_pos trivial]
  | false =>
    have h : Spaced ([','] :: (v.tokens ++ (continuing gs ++ ts))) s := by
      rw [← List.append_assoc]
      exact h
    obtain ⟨t, rest, skip⟩ := h.exists_skipSpace (by decide)
    obtain ⟨c, r, begins, skip', rest⟩ := rest.exists_value
    refine ⟨_, rest, ?_⟩
    unfold nextElement
    rw [skip, List.nil_append]
    simp only
    rw [if_neg (by decide), if_neg (by decide), if_pos trivial, skip']
    simp only
    rw [if_neg begins.ne_of_closing]

/-- The end of a list is read with the blanks before it. -/
theorem exists_endOfList (h : Spaced ([']'] :: ts) s) : ∃ r, Spaced ts r ∧ endOfList s = .ok r := by
  obtain ⟨r, rest, skip⟩ := h.exists_skipSpace (by decide)
  refine ⟨r, rest, ?_⟩
  rw [endOfList, skip]
  rfl

/-- A list with one more element does not end. -/
theorem exists_endOfList_error (h : Spaced (remaining first (v.tokens :: gs) ++ ts) s) : ∃ e, endOfList s = .error e := by
  have opens : ∃ c r, skipSpace s = c :: r ∧ c ≠ ']' := by
    cases first with
    | true =>
      rw [remaining, if_pos rfl, separated_cons, List.append_assoc] at h
      obtain ⟨c, r, begins, skip, -⟩ := h.exists_value
      exact ⟨c, r, skip, begins.ne_of_closing⟩
    | false =>
      have h : Spaced ([','] :: (v.tokens ++ continuing gs ++ ts)) s := h
      obtain ⟨r, -, skip⟩ := h.exists_skipSpace (by decide)
      exact ⟨',', r, skip, by decide⟩
  obtain ⟨c, r, skip, notClosing⟩ := opens
  unfold endOfList
  rw [skip]
  simp only
  rw [if_neg notClosing]
  split
  · exact ⟨_, rfl⟩
  · exact ⟨_, rfl⟩

/-! ## Objects -/

/-- An object ends at its closing bracket. -/
theorem exists_nextMember_closed (first : Bool) (h : Spaced (['\x7d'] :: ts) s) :
    ∃ r, Spaced ts r ∧ nextMember first s = .ok (.closed r) := by
  obtain ⟨r, rest, skip⟩ := h.exists_skipSpace (by decide)
  refine ⟨r, rest, ?_⟩
  rw [nextMember, skip]
  rfl

/-- In front of a member, and of its comma unless it is the first one, the object goes on with the key of the member. -/
theorem exists_nextMember_more (h : Spaced (remaining first ((quoted k :: [':'] :: v.tokens) :: gs) ++ ts) s) :
    ∃ r, Spaced ([':'] :: (v.tokens ++ (continuing gs ++ ts))) r ∧ nextMember first s = .ok (.more (letters k ++ '"' :: r)) := by
  have shape : ∀ r, letters k ++ ['"'] ++ r = letters k ++ '"' :: r := fun r => by rw [List.append_assoc, List.singleton_append]
  cases first with
  | true =>
    rw [remaining, if_pos rfl, separated_cons, List.append_assoc] at h
    have h : Spaced (quoted k :: [':'] :: (v.tokens ++ (continuing gs ++ ts))) s := h
    obtain ⟨r, rest, skip⟩ := h.exists_skipSpace (by decide)
    refine ⟨r, rest, ?_⟩
    rw [shape] at skip
    rw [nextMember, skip]
    rfl
  | false =>
    have h : Spaced ([','] :: quoted k :: [':'] :: (v.tokens ++ (continuing gs ++ ts))) s := by
      rw [← List.append_assoc]
      exact h
    obtain ⟨t, rest, skip⟩ := h.exists_skipSpace (by decide)
    obtain ⟨r, rest, skip'⟩ := rest.exists_skipSpace (by decide)
    refine ⟨r, rest, ?_⟩
    rw [shape] at skip'
    rw [nextMember, skip, List.nil_append]
    simp only
    rw [skip']
    rfl

end GlobeDrag.Json
