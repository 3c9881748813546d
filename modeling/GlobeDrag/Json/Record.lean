import GlobeDrag.Json.Format

/-!
# Formats of records

A record is written as an object, its members in any order, or as a list of its fields in their order. Members of unknown name are
passed over. While a record is read its fields are gathered in a draft, from which the record is built in the end.
-/

namespace GlobeDrag.Json

/-- A field of a record whose drafts are of type `σ`. -/
structure Field (σ : Type) where
  name : String
  /-- Whether the draft has the field already. -/
  isTaken : σ → Bool
  /-- The format of the field, as a change of the draft. -/
  format : Format (σ → σ)

/-- How a record of type `ρ` is written. -/
structure Shape (σ ρ : Type) where
  /-- The name of the record in error messages. -/
  title : String
  /-- The fields in their order. -/
  fields : List (Field σ)
  /-- The draft without fields. -/
  blank : σ
  /-- The record made of a draft, or the name of the first field that is missing. -/
  build : σ → Except String ρ

namespace Shape

variable {σ ρ : Type}

/-- The field of the given name. -/
def field? (sh : Shape σ ρ) (name : String) : Option (Field σ) :=
  sh.fields.find? (·.name = name)

/-! ## Objects -/

/-- Where an object is left that is given up: behind blanks, and behind its closing brace if that is next. -/
def givenUp (s : List Char) : List Char :=
  match skipSpace s with
  | '\x7d' :: r => r
  | r => r

/-- Reads the value of a member behind its key, and passes over it if there is no field of that name. A second member of one name
is refused before its value is looked at. -/
def member (sh : Shape σ ρ) (draft : σ) (name : String) (s : List Char) : Except Failure (σ × List Char) :=
  match sh.field? name with
  | some f =>
    if f.isTaken draft then .error (.reached (.duplicateField name) (givenUp s))
    else
      match colon s with
      | .error e => .error e
      | .ok r => (f.format.read r).map fun (change, rest) => (change draft, rest)
  | none => (colon s >>= skip).map (draft, ·)

/-- A member takes at least its value. -/
theorem member_shorter {sh : Shape σ ρ} {draft draft' : σ} {name : String} {s r : List Char}
    (h : sh.member draft name s = .ok (draft', r)) : r.length < s.length := by
  unfold member at h
  split at h
  · next f _ =>
    split at h
    · cases h
    · split at h
      · cases h
      · next t ht =>
        cases hf : f.format.read t with
        | error e =>
          rw [hf] at h
          cases h
        | ok p =>
          have hp : f.format.read t = .ok (p.1, p.2) := hf
          rw [hf] at h
          cases h
          have := f.format.shorter hp
          have := colon_shorter ht
          omega
  · cases hc : colon s with
    | error e =>
      rw [hc] at h
      cases h
    | ok t =>
      simp only [hc, bind, Except.bind] at h
      cases hs : skip t with
      | error e =>
        rw [hs] at h
        cases h
      | ok u =>
        rw [hs] at h
        cases h
        have := colon_shorter hc
        have := skip_shorter hs
        omega

/-- Reads the members of an object up to its closing brace. -/
def members (sh : Shape σ ρ) (first : Bool) (draft : σ) (s : List Char) : Except Failure (σ × List Char) :=
  match _h : nextMember first s with
  | .error e => .error e
  | .ok (.closed r) => .ok (draft, r)
  | .ok (.more r) =>
    match _hk : text r with
    | .error e => .error e
    | .ok (name, r) =>
      match _hm : sh.member draft name r with
      | .error e => .error e
      | .ok (draft, rest) => members sh false draft rest
termination_by s.length
decreasing_by
  have := nextMember_shorter _h
  have := text_shorter _hk
  have := member_shorter _hm
  simp only [Next.rest] at *
  omega

/-- The members of an object take at least its closing bracket. -/
theorem members_shorter {sh : Shape σ ρ} {first : Bool} {draft draft' : σ} {s r : List Char}
    (h : sh.members first draft s = .ok (draft', r)) : r.length < s.length := by
  fun_induction members sh first draft s with
  | case1 => cases h
  | case2 first draft s t hn =>
    cases h
    exact nextMember_shorter hn
  | case3 => cases h
  | case4 => cases h
  | case5 first draft s t hn name u hk draft₂ rest hm ih =>
    have := nextMember_shorter hn
    have := text_shorter hk
    have := member_shorter hm
    have := ih h
    simp only [Next.rest] at *
    omega

/-- Reads a record written as an object whose opening brace was seen. -/
def ofObject (sh : Shape σ ρ) (s : List Char) : Except Failure (ρ × List Char) :=
  match sh.members true sh.blank s with
  | .error e => .error e
  | .ok (draft, rest) =>
    match sh.build draft with
    | .error name => .error (.reached (.missingField name) rest)
    | .ok v => .ok (v, rest)

/-- So does an object. -/
theorem ofObject_shorter {sh : Shape σ ρ} {s r : List Char} {v : ρ} (h : sh.ofObject s = .ok (v, r)) :
    r.length < s.length := by
  unfold ofObject at h
  split at h
  · cases h
  · next draft rest hm =>
    split at h
    · cases h
    · cases h
      exact members_shorter hm

/-! ## Lists -/

/-- What was read of a record written as a list. -/
structure Positions (σ : Type) where
  draft : σ
  /-- How many fields were read. -/
  count : Nat
  /-- Whether the list ended. -/
  closed : Bool
  rest : List Char

/-- Reads fields from a list in their order, until the list or the fields end; `count` of them were read before. -/
def positions (count : Nat) (draft : σ) : List (Field σ) → List Char → Except Failure (Positions σ)
  | [], s => .ok ⟨draft, count, false, s⟩
  | f :: fs, s =>
    match nextElement (count == 0) s with
    | .error e => .error e
    | .ok (.closed r) => .ok ⟨draft, count, true, r⟩
    | .ok (.more r) =>
      match f.format.read r with
      | .error e => .error e
      | .ok (change, rest) => positions (count + 1) (change draft) fs rest

/-- Positions that are all left out take nothing, and a list that is closed takes its bracket. -/
theorem positions_shorter {count : Nat} {draft : σ} {fs : List (Field σ)} {s : List Char} {p : Positions σ}
    (h : positions count draft fs s = .ok p) :
    p.rest.length ≤ s.length ∧ (p.closed = true → p.rest.length < s.length) := by
  induction fs generalizing count draft s with
  | nil =>
    cases h
    exact ⟨Nat.le_refl _, nofun⟩
  | cons f fs ih =>
    rw [positions] at h
    split at h
    · cases h
    · next r hr =>
      cases h
      have := nextElement_closed_shorter hr
      exact ⟨Nat.le_of_lt this, fun _ => this⟩
    · next r hr =>
      split at h
      · cases h
      · next change rest hv =>
        have := nextElement_more_le hr
        have := f.format.shorter hv
        have := (ih h).1
        exact ⟨by omega, fun _ => by omega⟩

/-- Reads a record written as a list whose opening bracket was seen. -/
def ofList (sh : Shape σ ρ) (s : List Char) : Except Failure (ρ × List Char) :=
  match positions 0 sh.blank sh.fields s with
  | .error e => .error e
  | .ok p =>
    match sh.build p.draft with
    | .error _ => .error (.reached (.wrongLength p.count sh.title sh.fields.length) p.rest)
    | .ok v => if p.closed then .ok (v, p.rest) else (endOfList p.rest).map (v, ·)

/-- A list takes at least its closing bracket. -/
theorem ofList_shorter {sh : Shape σ ρ} {s r : List Char} {v : ρ} (h : sh.ofList s = .ok (v, r)) : r.length < s.length := by
  unfold ofList at h
  split at h
  · cases h
  · next p hp =>
    have := positions_shorter hp
    split at h
    · cases h
    · split at h
      · next hc =>
        cases h
        exact this.2 hc
      · cases he : endOfList p.rest with
        | error e =>
          rw [he] at h
          cases h
        | ok t =>
          rw [he] at h
          cases h
          have := endOfList_shorter he
          omega

/-! ## Records -/

/-- Reads a record written either way. -/
def read (sh : Shape σ ρ) : Reader ρ := fun s =>
  match skipSpace s with
  | [] => .error (.reached (.unfinished .value) [])
  | c :: r =>
    if c = '[' then sh.ofList r
    else if c = '\x7b' then sh.ofObject r
    else .error (wrongType ("struct " ++ sh.title) (c :: r))

/-- The format of a record. -/
def format (sh : Shape σ ρ) : Format ρ where
  read := sh.read
  shorter {s r v} h := by
    have := skipSpace_le s
    unfold read at h
    split at h
    · cases h
    · next c t ht =>
      rw [ht, List.length_cons] at this
      split at h
      · have := ofList_shorter h
        omega
      · split at h
        · have := ofObject_shorter h
          omega
        · cases h

/-! ## Records of one type of value -/

/-- A record all of whose fields have values of one type. Its drafts pair the names of fields with their values. -/
def uniform {α : Type} (title : String) (names : List String) (values : Format α)
    (build : (String → Option α) → Except String ρ) : Shape (List (String × α)) ρ where
  title
  fields := names.map fun name =>
    { name
      isTaken := fun draft => (draft.lookup name).isSome
      format := values.map fun v draft => (name, v) :: draft }
  blank := []
  build draft := build fun name => draft.lookup name

/-- The value of a field that a record must have. -/
def required {α : Type} (values : String → Option α) (name : String) : Except String α :=
  match values name with
  | some v => .ok v
  | none => .error name

end Shape

end GlobeDrag.Json
