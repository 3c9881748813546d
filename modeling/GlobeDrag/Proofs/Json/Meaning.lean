import GlobeDrag.Json.Format
import GlobeDrag.Proofs.Json.Quoted

/-!
# What the texts of a value are read as

A format reads the texts of a value as something that depends on the value alone: whatever blanks a text has, either it is read as that, up
to the tokens behind the value, or it is refused. What a value is read as is a function on values, given here beside each format.

Main statements: `denotes_double`, `Format.Denotes.optional`, `Format.Denotes.list` and `Format.Denotes.document_eq_ok`.
-/

namespace GlobeDrag.Json

variable {α β : Type} {f : Format α} {d : Value → Option α} {s : List Char} {ts : List (List Char)}

/-- The format reads the texts of a value as what `d` gives for the value. -/
def Format.Denotes (f : Format α) (d : Value → Option α) : Prop :=
  ∀ ⦃v : Value⦄ ⦃ts : List (List Char)⦄ ⦃s : List Char⦄, Stops ts → Spaced (v.tokens ++ ts) s → Yields (Spaced ts) (f.read s) (d v)

theorem toOption_eq_some {ε : Type} {e : Except ε α} {x : α} : e.toOption = some x ↔ e = .ok x := by
  cases e <;> simp [Except.toOption]

namespace Value

/-- A number as a double, if it is not too large. -/
def double? : Value → Option Float
  | number n => n.number.value.toOption.map Number.Value.toDouble
  | _ => none

/-- Nothing of `null`, and of another value what `d` gives for it. -/
def optional? (d : Value → Option α) : Value → Option (Option α)
  | null => some none
  | v => (d v).map some

/-- The elements of a list. -/
def list? (d : Value → Option α) : Value → Option (List α)
  | list vs => vs.mapM d
  | _ => none

end Value

namespace Format

/-- The format of doubles reads what a value says. -/
theorem denotes_double : double.Denotes Value.double? := by
  intro v ts s stops h
  change Yields _ (readDouble s) _
  unfold readDouble
  cases v with
  | number n =>
    obtain ⟨c, cs, chars, begins⟩ := n.exists_chars
    rw [Value.tokens, chars] at h
    obtain ⟨r, rest, skip⟩ := h.exists_skipSpace (Number.isSpace_of_begins begins)
    have scan : Number.scan (.unfinished .value) (c :: (cs ++ r)) = .ok (n.number, r) := by
      rw [← List.cons_append, ← chars]
      exact Number.scan_append n.isPlain n.spells (rest.ends stops)
    rw [skip]
    simp only
    rw [if_pos begins, Number.read, scan, Value.double?]
    simp only [bind, Except.bind]
    cases n.number.value with
    | error e => exact .error
    | ok x => exact .ok rest
  | _ =>
    obtain ⟨c, r, begins, skip, -⟩ := h.exists_value
    rw [skip]
    cases begins <;> exact .error

/-- So does a format whose result is converted. -/
theorem Denotes.map (h : f.Denotes d) (g : α → β) : (f.map g).Denotes fun v => (d v).map g := by
  intro v ts s stops hs
  exact (h stops hs).map g

/-- So does one that takes a null. -/
theorem Denotes.optional (h : f.Denotes d) : f.optional.Denotes (Value.optional? d) := by
  intro v ts s stops hs
  change Yields _ (readOptional f s) _
  unfold readOptional
  cases v with
  | null =>
    rw [Value.tokens] at hs
    obtain ⟨r, rest, skip⟩ := hs.exists_skipSpace (by decide)
    rw [skip]
    exact .ok rest
  | number n =>
    obtain ⟨c, r, begins, skip, -⟩ := hs.exists_value
    cases begins with | number begins =>
    rw [skip]
    split
    · next hc => exact absurd (List.cons.inj hc).1 (Number.ne_of_begins begins (by decide))
    · exact (h stops hs).map some
  | _ =>
    obtain ⟨c, r, begins, skip, -⟩ := hs.exists_value
    rw [skip]
    cases begins <;> exact (h stops hs).map some

/-- The elements of a list, one step of the reader. -/
theorem elements_eq (before : List α) (s : List Char) : elements f before s = nextElement before.isEmpty s >>= fun
    | .closed r => .ok (before.reverse, r)
    | .more r => f.read r >>= fun (v, rest) => elements f (v :: before) rest := by
  rw [elements]
  split
  · next h => rw [h]; rfl
  · next h => rw [h]; rfl
  · next h => 
    rw [h]
    change _ = f.read _ >>= _
    split
    · next h => rw [h]; rfl
    · next h => rw [h]; rfl

/-- Elements are read as the values of a list say. -/
theorem Denotes.elements (h : f.Denotes d) (vs : List Value) (before : List α)
    (hs : Spaced (remaining before.isEmpty (vs.map Value.tokens) ++ [']'] :: ts) s) :
    Yields (Spaced ts) (elements f before s) ((vs.mapM d).map (before.reverse ++ ·)) := by
  induction vs generalizing before s with
  | nil =>
    rw [List.map_nil, remaining_nil] at hs
    obtain ⟨r, rest, next⟩ := exists_nextElement_closed before.isEmpty hs
    rw [elements_eq, next, List.mapM_nil, Option.pure_def, Option.map_some, List.append_nil]
    exact .ok rest
  | cons v vs ih =>
    obtain ⟨r, rest, next⟩ := exists_nextElement_more hs
    rw [elements_eq, next, List.mapM_cons]
    have meaning : (do let x ← d v; let xs ← vs.mapM d; pure (x :: xs) : Option (List α)).map (before.reverse ++ ·) =
        d v >>= fun x => (vs.mapM d).map ((x :: before).reverse ++ ·) := by
      cases d v with
      | none => rfl
      | some x => cases vs.mapM d <;> simp
    rw [meaning]
    exact (h (stops_continuing (Or.inl rfl)) rest).bind fun x r rest => ih (x :: before) rest

/-- A format of elements reads lists of them. -/
theorem Denotes.list (h : f.Denotes d) : f.list.Denotes (Value.list? d) := by
  intro v ts s stops hs
  change Yields _ (readList f s) _
  unfold readList
  cases v with
  | list vs =>
    rw [Value.tokens, elementTokens_eq, List.cons_append, List.append_assoc] at hs
    obtain ⟨r, rest, skip⟩ := hs.exists_skipSpace (by decide)
    rw [skip]
    have elements := h.elements vs [] rest
    rw [List.reverse_nil, funext List.nil_append, Option.map_id_fun', id] at elements
    exact elements
  | number n =>
    obtain ⟨c, r, begins, skip, -⟩ := hs.exists_value
    cases begins with | number begins =>
    rw [skip]
    simp only
    rw [if_neg (Number.ne_of_begins begins (by decide))]
    exact .error
  | _ =>
    obtain ⟨c, r, begins, skip, -⟩ := hs.exists_value
    rw [skip]
    cases begins <;> exact .error

/-- A document is read as what its value denotes. -/
theorem Denotes.document_eq_ok (h : f.Denotes d) {v : Value} {text : String} (ht : v.IsText text) {x : α} :
    f.document text = .ok x ↔ d v = some x := by
  have ht : Spaced (v.tokens ++ []) text.toList := by rwa [List.append_nil]
  have read : Yields (Spaced []) (f.read text.toList) (d v) := h nofun ht
  have whole : (f.document text).toOption = d v := by
    rw [document, readAlone]
    generalize f.read text.toList = result, d v = meaning at read ⊢
    cases read with
    | ok rest =>
      simp only [bind, Except.bind]
      rw [if_pos rest.skipSpace_eq_nil]
      rfl
    | error => rfl
  rw [← toOption_eq_some, whole]

end Format

end GlobeDrag.Json
