import GlobeDrag.Proofs.Json.Meaning
import GlobeDrag.Proofs.Json.Record
import GlobeDrag.Proofs.Json.Skip

/-!
# What records are read as

A record is read as what its object or its list denotes, provided that each of its fields is: the members of an object change the draft one
after the other, those of unknown name leave it as it is, and the elements of a list change it like the fields in their order.

Main statement: `Shape.denotes_format`.
-/

namespace GlobeDrag.Json.Shape

variable {σ ρ : Type} {sh : Shape σ ρ} {meaning : String → Value → Option (σ → σ)} {draft : σ} {s : List Char} {ts : List (List Char)}

/-! ## Meaning -/

section meaning

variable (sh) (meaning)

/-- The draft after a member of the given name. A second member of a known name is refused. -/
def change (draft : σ) (name : String) (v : Value) : Option σ :=
  match sh.field? name with
  | none => some draft
  | some f => if f.isTaken draft then none else (meaning name v).map (· draft)

/-- The draft after a member. -/
def take (draft : σ) (m : List Piece × Value) : Option σ :=
  nameOf m.1 >>= (sh.change meaning draft · m.2)

/-- The draft after elements that stand for the given fields; there may be less of them, but not more. -/
def fill : σ → List (Field σ) → List Value → Option σ
  | draft, _, [] => some draft
  | _, [], _ :: _ => none
  | draft, f :: fs, v :: vs => meaning f.name v >>= fun g => fill (g draft) fs vs

/-- The record that a value denotes. -/
def denote : Value → Option ρ
  | .object ms => ms.foldlM (sh.take meaning) sh.blank >>= fun draft => (sh.build draft).toOption
  | .list vs => fill meaning sh.blank sh.fields vs >>= fun draft => (sh.build draft).toOption
  | _ => none

end meaning

/-- The fields of a record denote changes of the draft. -/
def FieldsDenote (sh : Shape σ ρ) (meaning : String → Value → Option (σ → σ)) : Prop :=
  ∀ f ∈ sh.fields, f.format.Denotes (meaning f.name)

/-! ## Objects -/

/-- A member yields the change that its value stands for. -/
theorem yields_member (h : sh.FieldsDenote meaning) {name : String} {v : Value} (stops : Stops ts)
    (hs : Spaced ([':'] :: (v.tokens ++ ts)) s) : Yields (Spaced ts) (sh.member draft name s) (sh.change meaning draft name v) := by
  obtain ⟨r, rest, hcolon⟩ := exists_colon hs
  unfold member change
  cases hf : sh.field? name with
  | none =>
    obtain ⟨t, rest, hskip⟩ := exists_skip stops rest
    simp only [hcolon]
    change Yields _ ((skip r).map _) _
    rw [hskip]
    exact .ok rest
  | some f =>
    simp only
    split
    · exact .error
    · have named : f.name = name := of_decide_eq_true (List.find?_some (p := fun f : Field σ => decide (f.name = name)) hf)
      have value := h f (List.mem_of_find?_eq_some hf) stops rest
      rw [named] at value
      rw [hcolon]
      exact value.map (· draft)

/-- Members yield their changes, one after another. -/
theorem yields_members (h : sh.FieldsDenote meaning) (ms : List (List Piece × Value)) (first : Bool) (draft : σ)
    (hs : Spaced (remaining first (ms.map fun m => quoted m.1 :: [':'] :: m.2.tokens) ++ ['\x7d'] :: ts) s) :
    Yields (Spaced ts) (sh.members first draft s) (ms.foldlM (sh.take meaning) draft) := by
  induction ms generalizing first draft s with
  | nil =>
    rw [List.map_nil, remaining_nil] at hs
    obtain ⟨r, rest, next⟩ := exists_nextMember_closed first hs
    rw [members_of_closed next]
    exact .ok rest
  | cons m ms ih =>
    obtain ⟨r, rest, next⟩ := exists_nextMember_more hs
    rw [members_eq, next, List.foldlM_cons, take, bind_assoc]
    refine (yields_text m.1 r).bind fun name t ht => ?_
    rw [ht]
    exact (yields_member h (stops_continuing (Or.inr rfl)) rest).bind fun draft t rest => ih false draft rest

/-- An object yields what it denotes. -/
theorem yields_ofObject (h : sh.FieldsDenote meaning) (ms : List (List Piece × Value))
    (hs : Spaced (separated (memberTokens ms) ++ ['\x7d'] :: ts) s) :
    Yields (Spaced ts) (sh.ofObject s) (sh.denote meaning (.object ms)) := by
  rw [memberTokens_eq] at hs
  have members := yields_members h ms true sh.blank hs
  rw [ofObject, denote]
  generalize sh.members true sh.blank s = result, ms.foldlM (sh.take meaning) sh.blank = gathered at members ⊢
  cases members with
  | error => exact .error
  | @ok draft r rest =>
    simp only [Option.bind_eq_bind, Option.bind_some]
    cases sh.build draft with
    | error => exact .error
    | ok v => exact .ok rest

/-! ## Lists -/

/-- What is made of the fields that were read of a list: the record, if the list ends there. -/
def complete (sh : Shape σ ρ) (p : Positions σ) : Except Failure (ρ × List Char) :=
  match sh.build p.draft with
  | .error _ => .error (.reached (.wrongLength p.count sh.title sh.fields.length) p.rest)
  | .ok v => if p.closed then .ok (v, p.rest) else (endOfList p.rest).map (v, ·)

/-- A list is read by positions. -/
theorem ofList_eq (sh : Shape σ ρ) (s : List Char) : sh.ofList s = positions 0 sh.blank sh.fields s >>= sh.complete := by
  rw [ofList]
  cases positions 0 sh.blank sh.fields s with
  | error => rfl
  | ok p => rfl

/-- One position of a list. -/
theorem positions_cons (count : ℕ) (draft : σ) (f : Field σ) (fs : List (Field σ)) (s : List Char) :
    positions count draft (f :: fs) s = nextElement (count == 0) s >>= fun
      | .closed r => .ok ⟨draft, count, true, r⟩
      | .more r => f.format.read r >>= fun (g, rest) => positions (count + 1) (g draft) fs rest := by
  rw [positions]
  cases nextElement (count == 0) s with
  | error => rfl
  | ok n =>
    cases n with
    | closed r => rfl
    | more r =>
      simp only [bind, Except.bind]
      cases f.format.read r with
      | error => rfl
      | ok p => rfl

/-- The fields of a list are read as far as there are elements. -/
theorem yields_positions (fs : List (Field σ)) (h : ∀ f ∈ fs, f.format.Denotes (meaning f.name)) (vs : List Value) (count : ℕ)
    (draft : σ) (hs : Spaced (remaining (count == 0) (vs.map Value.tokens) ++ [']'] :: ts) s) :
    Yields (Spaced ts) (positions count draft fs s >>= sh.complete)
      (fill meaning draft fs vs >>= fun draft => (sh.build draft).toOption) := by
  induction fs generalizing vs count draft s with
  | nil =>
    change Yields _ (sh.complete ⟨draft, count, false, s⟩) _
    rw [complete]
    cases vs with
    | nil =>
      rw [List.map_nil, remaining_nil] at hs
      obtain ⟨r, rest, ended⟩ := exists_endOfList hs
      change Yields (Spaced ts) _ (sh.build draft).toOption
      cases sh.build draft with
      | error => exact .error
      | ok x =>
        simp only [ended]
        exact .ok rest
    | cons v vs =>
      obtain ⟨e, ended⟩ := exists_endOfList_error hs
      rw [fill]
      cases sh.build draft with
      | error => exact .error
      | ok x =>
        simp only [ended]
        exact .error
  | cons f fs ih =>
    cases vs with
    | nil =>
      rw [List.map_nil, remaining_nil] at hs
      obtain ⟨r, rest, next⟩ := exists_nextElement_closed (count == 0) hs
      rw [positions_cons, next]
      change Yields (Spaced ts) (sh.complete ⟨draft, count, true, r⟩) (sh.build draft).toOption
      rw [complete]
      cases sh.build draft with
      | error => exact .error
      | ok x => exact .ok rest
    | cons v vs =>
      obtain ⟨r, rest, next⟩ := exists_nextElement_more hs
      rw [positions_cons, next, fill]
      change Yields (Spaced ts) ((f.format.read r >>= fun (g, rest) => positions (count + 1) (g draft) fs rest) >>= sh.complete) _
      rw [bind_assoc, bind_assoc]
      refine (h f List.mem_cons_self (stops_continuing (Or.inl rfl)) rest).bind fun g t rest => ?_
      exact ih (fun f hf => h f (List.mem_cons_of_mem _ hf)) vs (count + 1) (g draft) rest

/-- A list yields what it denotes. -/
theorem yields_ofList (h : sh.FieldsDenote meaning) (vs : List Value) (hs : Spaced (separated (elementTokens vs) ++ [']'] :: ts) s) :
    Yields (Spaced ts) (sh.ofList s) (sh.denote meaning (.list vs)) := by
  rw [elementTokens_eq] at hs
  rw [ofList_eq]
  exact yields_positions sh.fields h vs 0 sh.blank hs

/-! ## Records -/

/-- A record is read as what its value denotes. -/
theorem denotes_format (h : sh.FieldsDenote meaning) : sh.format.Denotes (sh.denote meaning) := by
  intro v ts s stops hs
  change Yields _ (sh.read s) _
  unfold read
  cases v with
  | list vs =>
    rw [Value.tokens, List.cons_append, List.append_assoc] at hs
    obtain ⟨r, rest, skip⟩ := hs.exists_skipSpace (by decide)
    rw [skip]
    exact yields_ofList h vs rest
  | object ms =>
    rw [Value.tokens, List.cons_append, List.append_assoc] at hs
    obtain ⟨r, rest, skip⟩ := hs.exists_skipSpace (by decide)
    rw [skip]
    exact yields_ofObject h ms rest
  | number n =>
    obtain ⟨c, r, begins, skip, -⟩ := hs.exists_value
    cases begins with | number begins =>
    rw [skip]
    simp only
    rw [if_neg (Number.ne_of_begins begins (by decide)), if_neg (Number.ne_of_begins begins (by decide))]
    exact .error
  | _ =>
    obtain ⟨c, r, begins, skip, -⟩ := hs.exists_value
    rw [skip]
    cases begins <;> exact .error

end GlobeDrag.Json.Shape
