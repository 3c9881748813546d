import GlobeDrag.Json.Record
import GlobeDrag.Json.Tree
import Mathlib

/-!
# Written records are read

Where the fields of a record have one type of value, an object is read member by member: each member adds its name and value to the
draft. So the draft of a written object is the list of its members, the last one first.

Main statements: `Shape.members_following` (one member after the other), `Shape.members_object` (from the first one on) and
`Shape.document_object` (a whole object, from its text).
-/

namespace GlobeDrag.Json

/-! ## Keys -/

/-- Characters that a string holds as they are. -/
def IsPlainKey (cs : List Char) : Prop := ∀ c ∈ cs, c ≠ '"' ∧ c ≠ '\\' ∧ 0x20 ≤ c.toNat

variable {cs : List Char}

/-- A plain key is read up to its quote. -/
theorem characters_append (h : IsPlainKey cs) (before s : List Char) :
    characters before (cs ++ '"' :: s) = .ok (before.reverse ++ cs, s) := by
  induction cs generalizing before with
  | nil => rw [List.nil_append, characters, if_pos rfl, List.append_nil]
  | cons c r ih =>
    obtain ⟨quote, escape, control⟩ := h c List.mem_cons_self
    rw [List.cons_append, characters, if_neg quote, if_neg escape, if_neg (by omega),
      ih (fun d hd => h d (List.mem_cons_of_mem _ hd)), List.reverse_cons, List.append_assoc]
    rfl

/-- A key without characters that need an escape is read up to its closing quote. -/
theorem text_append {name : String} (h : IsPlainKey name.toList) (s : List Char) :
    text (name.toList ++ '"' :: s) = .ok (name, s) := by
  rw [text, characters_append h]
  simp [Except.map]

/-! ## Members -/

/-- A member of an object: its name, its value, and the text of the value. -/
structure Entry (α : Type) where
  name : String
  text : List Char
  value : α

variable {α ρ : Type}

/-- The text of a member. -/
def Entry.chars (m : Entry α) : List Char :=
  '"' :: (m.name.toList ++ '"' :: ':' :: m.text)

/-- A text in front of which a member ends. -/
def EndsMember (s : List Char) : Prop := s.head? = some ',' ∨ s.head? = some '\x7d'

/-- The member belongs to a record with the given fields, and its text is read as its value. -/
structure Entry.IsRead (names : List String) (values : Format α) (m : Entry α) : Prop where
  isPlain : IsPlainKey m.name.toList
  mem_names : m.name ∈ names
  read_eq : ∀ s, EndsMember s → values.read (m.text ++ s) = .ok (m.value, s)

namespace Shape

section steps

variable {σ : Type} {sh : Shape σ ρ} {first : Bool} {draft draft' : σ} {s r rest : List Char} {name : String}

/-- One step of reading members. -/
theorem members_eq (sh : Shape σ ρ) (first : Bool) (draft : σ) (s : List Char) :
    sh.members first draft s = nextMember first s >>= fun
      | .closed r => .ok (draft, r)
      | .more r => text r >>= fun (name, t) => sh.member draft name t >>= fun (draft, rest) => sh.members false draft rest := by
  rw [members]
  split
  · next h =>
    rw [h]
    rfl
  · next h =>
    rw [h]
    rfl
  · next r h =>
    rw [h]
    change _ = text r >>= _
    split
    · next h =>
      rw [h]
      rfl
    · next name t h =>
      rw [h]
      change _ = sh.member draft name t >>= _
      split
      · next h =>
        rw [h]
        rfl
      · next h =>
        rw [h]
        rfl

/-- At the closing bracket no member is left. -/
theorem members_of_closed (h : nextMember first s = .ok (.closed r)) : sh.members first draft s = .ok (draft, r) := by
  rw [members_eq, h]
  rfl

/-- Otherwise a member is read, and then the rest of them. -/
theorem members_of_more (h : nextMember first s = .ok (.more r)) (hk : text r = .ok (name, rest)) {rest' : List Char}
    (hm : sh.member draft name rest = .ok (draft', rest')) : sh.members first draft s = sh.members false draft' rest' := by
  rw [members_eq, h]
  change text r >>= _ = _
  rw [hk]
  change sh.member draft name rest >>= _ = _
  rw [hm]
  rfl

end steps

variable {title : String} {names : List String} {values : Format α} {build : (String → Option α) → Except String ρ}
  {draft : List (String × α)} {m : Entry α} {ms : List (Entry α)}

/-- One member adds its name and value to the draft. -/
theorem member_entry (h : m.IsRead names values) (fresh : draft.lookup m.name = none) {s : List Char} (hs : EndsMember s) :
    (uniform title names values build).member draft m.name (':' :: (m.text ++ s)) = .ok ((m.name, m.value) :: draft, s) := by
  have field : (uniform title names values build).field? m.name = some
      { name := m.name
        isTaken := fun draft => (draft.lookup m.name).isSome
        format := values.map fun v draft => (m.name, v) :: draft } := by
    have found : names.find? (fun name => name = m.name) = some m.name := by
      cases hf : names.find? (fun name => name = m.name) with
      | none => exact absurd rfl (of_decide_eq_false (Bool.eq_false_iff.2 (List.find?_eq_none.1 hf m.name h.mem_names)))
      | some name =>
        have eq : decide (name = m.name) = true := List.find?_some (p := fun name => decide (name = m.name)) hf
        rw [of_decide_eq_true eq]
    rw [field?, uniform, List.find?_map]
    exact congrArg (Option.map _) found
  have read : (values.map fun v (draft : List (String × α)) => (m.name, v) :: draft).read (m.text ++ s) =
      .ok (fun draft => (m.name, m.value) :: draft, s) := by
    change (values.read (m.text ++ s)).map _ = _
    rw [h.read_eq s hs]
    rfl
  unfold member
  rw [field]
  simp only [fresh, Option.isSome_none, Bool.false_eq_true, if_false]
  change (Except.map _ (Format.read _ (m.text ++ s))) = _
  rw [read]
  rfl

/-- A member of a new name is put down under it. -/
theorem members_entry (h : m.IsRead names values) (fresh : draft.lookup m.name = none) {first : Bool} {s t : List Char}
    (ht : EndsMember t) (hs : nextMember first s = .ok (.more (m.name.toList ++ '"' :: ':' :: (m.text ++ t)))) :
    (uniform title names values build).members first draft s =
      (uniform title names values build).members false ((m.name, m.value) :: draft) t :=
  members_of_more hs (text_append h.isPlain _) (member_entry h fresh ht)

/-- The members behind the first one, as text. -/
def following (ms : List (Entry α)) : List Char :=
  ms.flatMap fun m => ',' :: m.chars

/-- What follows a member ends it. -/
theorem endsMember_following (ms : List (Entry α)) (r : List Char) : EndsMember (following ms ++ '\x7d' :: r) := by
  cases ms with
  | nil => exact Or.inr rfl
  | cons m ms => exact Or.inl rfl

/-- The members of an object behind the ones read already. -/
theorem members_following (known : ∀ m ∈ ms, m.IsRead names values) (distinct : (ms.map Entry.name).Nodup)
    (fresh : ∀ m ∈ ms, draft.lookup m.name = none) (r : List Char) :
    (uniform title names values build).members false draft (following ms ++ '\x7d' :: r) =
      .ok ((ms.map fun m => (m.name, m.value)).reverse ++ draft, r) := by
  induction ms generalizing draft with
  | nil => exact members_of_closed rfl
  | cons m ms ih =>
    obtain ⟨other, distinct⟩ := List.nodup_cons.1 distinct
    have split : following (m :: ms) ++ '\x7d' :: r =
        ',' :: '"' :: (m.name.toList ++ '"' :: ':' :: (m.text ++ (following ms ++ '\x7d' :: r))) := by
      simp [following, Entry.chars]
    rw [split, members_entry (known m List.mem_cons_self) (fresh m List.mem_cons_self) (endsMember_following ms r) rfl,
      ih (fun x hx => known x (List.mem_cons_of_mem _ hx)) distinct]
    · rw [List.map_cons, List.reverse_cons, List.append_assoc, List.singleton_append]
    · intro x hx
      have ne : x.name ≠ m.name := fun h => other (h ▸ List.mem_map_of_mem hx)
      rw [List.lookup_cons, beq_false_of_ne ne]
      exact fresh x (List.mem_cons_of_mem _ hx)

/-- Members between commas: the first one and what follows it. -/
theorem intercalate_chars (m : Entry α) (ms : List (Entry α)) :
    [','].intercalate ((m :: ms).map Entry.chars) = m.chars ++ following ms := by
  induction ms generalizing m with
  | nil => simp [following]
  | cons n ms ih =>
    rw [List.map_cons, List.map_cons, List.intercalate_cons_cons, ← List.map_cons, ih n]
    simp [following]

/-- The members of a whole object. -/
theorem members_object (known : ∀ m ∈ ms, m.IsRead names values) (distinct : (ms.map Entry.name).Nodup) (r : List Char) :
    (uniform title names values build).members true [] ([','].intercalate (ms.map Entry.chars) ++ '\x7d' :: r) =
      .ok ((ms.map fun m => (m.name, m.value)).reverse, r) := by
  cases ms with
  | nil => exact members_of_closed rfl
  | cons m ms =>
    obtain ⟨other, distinct⟩ := List.nodup_cons.1 distinct
    have split : [','].intercalate ((m :: ms).map Entry.chars) ++ '\x7d' :: r =
        '"' :: (m.name.toList ++ '"' :: ':' :: (m.text ++ (following ms ++ '\x7d' :: r))) := by
      rw [intercalate_chars]
      simp [Entry.chars]
    rw [split, members_entry (known m List.mem_cons_self) rfl (endsMember_following ms r) rfl,
      members_following (fun x hx => known x (List.mem_cons_of_mem _ hx)) distinct, List.map_cons, List.reverse_cons]
    intro x hx
    have ne : x.name ≠ m.name := fun h => other (h ▸ List.mem_map_of_mem hx)
    rw [List.lookup_cons, beq_false_of_ne ne]
    rfl

/-- A written object is read as the record built of its members. -/
theorem document_object (known : ∀ m ∈ ms, m.IsRead names values) (distinct : (ms.map Entry.name).Nodup) {v : ρ} {s : String}
    (hs : s.toList = '\x7b' :: ([','].intercalate (ms.map Entry.chars) ++ ['\x7d']))
    (hv : build (fun name => (ms.map fun m => (m.name, m.value)).reverse.lookup name) = .ok v) :
    (uniform title names values build).format.document s = .ok v := by
  have read : (uniform title names values build).format.read s.toList = .ok (v, []) := by
    change (uniform title names values build).read s.toList = _
    rw [hs]
    change (uniform title names values build).ofObject _ = _
    have members : (uniform title names values build).members true (uniform title names values build).blank
        ([','].intercalate (ms.map Entry.chars) ++ ['\x7d']) = .ok ((ms.map fun m => (m.name, m.value)).reverse, []) :=
      members_object known distinct []
    have built : (uniform title names values build).build (ms.map fun m => (m.name, m.value)).reverse = .ok v := hv
    rw [ofObject, members]
    simp only [built]
  rw [Format.document, Format.readAlone, read]
  rfl

end Shape

end GlobeDrag.Json
