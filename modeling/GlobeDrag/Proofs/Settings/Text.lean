import GlobeDrag.Proofs.Decimal.Literal
import GlobeDrag.Proofs.Session
import GlobeDrag.Proofs.Work
import GlobeDrag.Settings.Text

/-!
# Settings from texts

Of a text only the entries of its section count that have the name of a setting, in their order. They are taken in one by one, and the
first whose value is no literal of its kind ends the reading. If there is none, the last entry of each name decides, and only the outcome
is checked.

Main statements: `relevant_eq_of_eqvGen` (what else a text contains does not count), `foldlM_of_readable` (the last entry of each name
decides) and `ofText_takes_last_entries` (the whole reading, with the order of its errors).
-/

namespace GlobeDrag.Settings

open Decimal (WritesDouble WritesWhole doubleOfChars?_trim wholeOfChars?_trim)

variable {s : Settings} {name : String} {entry : String × String} {entries before after : List (String × String)}

/-! ## Entries that count -/

/-- The entries with the name of a setting in the section of the settings. -/
def relevant (items : List Ini.Item) : List (String × String) :=
  ((Ini.settings? sectionName items).getD []).filter (·.1 ∈ names)

/-- The second text has more than the first: an entry whose name is not that of a setting, or a section that is not that of the
settings. -/
inductive Adds : List Ini.Item → List Ini.Item → Prop where
  | unknown {before after : List Ini.Item} {key value : String} : key ∉ names →
      Adds (before ++ after) (before ++ .setting key value :: after)
  | other {before body after : List Ini.Item} {name : String} : name ≠ sectionName →
      (∀ i ∈ body, ∃ key value, i = .setting key value) → (∀ i ∈ after.head?, ∃ n, i = .header n) →
      Adds (before ++ after) (before ++ .header name :: (body ++ after))

/-- An entry in front of all sections does not count. -/
theorem relevant_setting (key value : String) (items : List Ini.Item) : relevant (.setting key value :: items) = relevant items := rfl

/-- From the header of the settings on, the entries up to the next header count. -/
theorem relevant_header (n : String) (items : List Ini.Item) : relevant (.header n :: items) =
    if n = sectionName then (Ini.leading items).filter (·.1 ∈ names) else relevant items := by
  unfold relevant
  rw [Ini.settings?]
  split <;> rfl

/-- Entries outside of the section do not count. -/
theorem relevant_append_of_settings {body items : List Ini.Item} (h : ∀ i ∈ body, ∃ key value, i = .setting key value) :
    relevant (body ++ items) = relevant items := by
  induction body with
  | nil => rfl
  | cons i r ih =>
    obtain ⟨key, value, rfl⟩ := h i List.mem_cons_self
    rw [List.cons_append, relevant_setting]
    exact ih fun j hj => h j (List.mem_cons_of_mem _ hj)

/-- A section ends with the next header. -/
theorem leading_append_header (before : List Ini.Item) {rest : List Ini.Item} (h : ∀ i ∈ rest.head?, ∃ n, i = .header n) :
    Ini.leading (before ++ rest) = Ini.leading before := by
  induction before with
  | nil =>
    cases rest with
    | nil => rfl
    | cons i r =>
      obtain ⟨n, rfl⟩ := h i rfl
      rfl
  | cons i r ih =>
    cases i with
    | header n => rfl
    | setting key value => exact congrArg ((key, value) :: ·) ih

/-- One more entry of another name in a section does not count. -/
theorem filter_leading_insert {key value : String} (h : key ∉ names) (before after : List Ini.Item) :
    (Ini.leading (before ++ .setting key value :: after)).filter (·.1 ∈ names) =
      (Ini.leading (before ++ after)).filter (·.1 ∈ names) := by
  induction before with
  | nil => exact List.filter_cons_of_neg (by simpa using h)
  | cons i r ih =>
    cases i with
    | header n => rfl
    | setting k v =>
      rw [List.cons_append, List.cons_append, Ini.leading, Ini.leading, List.filter_cons, List.filter_cons, ih]

/-- What is added does not count. -/
theorem relevant_of_adds {items items' : List Ini.Item} (h : Adds items items') : relevant items' = relevant items := by
  cases h with
  | @unknown before after key value h =>
    induction before with
    | nil => rfl
    | cons i r ih =>
      cases i with
      | setting k v => rw [List.cons_append, List.cons_append, relevant_setting, relevant_setting, ih]
      | header n => rw [List.cons_append, List.cons_append, relevant_header, relevant_header, filter_leading_insert h, ih]
  | @other before body after name h settings ends =>
    induction before with
    | nil => rw [List.nil_append, List.nil_append, relevant_header, if_neg h, relevant_append_of_settings settings]
    | cons i r ih =>
      cases i with
      | setting k v => rw [List.cons_append, List.cons_append, relevant_setting, relevant_setting, ih]
      | header n =>
        rw [List.cons_append, List.cons_append, relevant_header, relevant_header, leading_append_header r ends, ih,
          leading_append_header r (by simp)]

/-- Entries of other names and other sections may come, go and move. -/
theorem relevant_eq_of_eqvGen {items items' : List Ini.Item} (h : Relation.EqvGen Adds items items') :
    relevant items' = relevant items := by
  induction h with
  | rel _ _ h => exact relevant_of_adds h
  | refl _ => rfl
  | symm _ _ _ ih => exact ih.symm
  | trans _ _ _ _ _ ih ih' => exact ih'.trans ih

/-! ## One entry -/

/-- The value of an entry is a literal of the kind that its name asks for. -/
def Readable (entry : String × String) : Prop :=
  (entry.1 = "epsilon" → ∃ x, WritesDouble entry.2.toList x) ∧ (entry.1 = "precision" → ∃ n, WritesWhole entry.2.toList n)

/-- What comes of taking in an entry. -/
def entered (s : Settings) (entry : String × String) : Except SettingsError Settings :=
  (set s entry).result

/-- What taking in an entry can come to: the angle or the decimal places are replaced, the entry is passed over, or it is reported. -/
theorem entered_cases (s : Settings) (entry : String × String) :
    (∃ x, entry.1 = "epsilon" ∧ WritesDouble entry.2.toList x ∧ entered s entry = .ok { s with epsilon := x }) ∨
    (∃ n, entry.1 = "precision" ∧ WritesWhole entry.2.toList n ∧ entered s entry = .ok { s with precision := n }) ∨
    (entry.1 ∉ names ∧ entered s entry = .ok s) ∨
    (entry.1 ∈ names ∧ ¬Readable entry ∧ entered s entry = .error (.unreadable entry.1 entry.2)) := by
  obtain ⟨name, value⟩ := entry
  unfold entered set
  simp only
  split
  · next isEpsilon =>
    cases read : Decimal.doubleOfChars? (Text.trim value.toList) with
    | some x => exact .inl ⟨x, isEpsilon, doubleOfChars?_trim.1 read, rfl⟩
    | none =>
      refine .inr (.inr (.inr ⟨by simp [names, isEpsilon], fun readable => ?_, rfl⟩))
      obtain ⟨x, written⟩ := readable.1 isEpsilon
      rw [doubleOfChars?_trim.2 written] at read
      cases read
  · next notEpsilon =>
    split
    · next isPrecision =>
      cases read : Decimal.wholeOfChars? (Text.trim value.toList) with
      | some n => exact .inr (.inl ⟨n, isPrecision, wholeOfChars?_trim.1 read, rfl⟩)
      | none =>
        refine .inr (.inr (.inr ⟨by simp [names, isPrecision], fun readable => ?_, rfl⟩))
        obtain ⟨n, written⟩ := readable.2 isPrecision
        rw [wholeOfChars?_trim.2 written] at read
        cases read
    · next notPrecision => exact .inr (.inr (.inl ⟨by simp [names, notEpsilon, notPrecision], rfl⟩))

/-- An entry of unknown name is passed over. -/
theorem entered_of_notMem (h : entry.1 ∉ names) : entered s entry = .ok s := by
  rcases entered_cases s entry with ⟨x, isEpsilon, -⟩ | ⟨n, isPrecision, -⟩ | ⟨-, passed⟩ | ⟨known, -⟩
  · exact absurd (by simp [names, isEpsilon]) h
  · exact absurd (by simp [names, isPrecision]) h
  · exact passed
  · exact absurd known h

/-- An entry that cannot be read is reported. -/
theorem entered_of_not_readable (h : ¬Readable entry) : entered s entry = .error (.unreadable entry.1 entry.2) := by
  rcases entered_cases s entry with ⟨x, isEpsilon, written, -⟩ | ⟨n, isPrecision, written, -⟩ | ⟨unknown, -⟩ | ⟨-, -, reported⟩
  · exact absurd ⟨fun _ => ⟨x, written⟩, by simp [isEpsilon]⟩ h
  · exact absurd ⟨by simp [isPrecision], fun _ => ⟨n, written⟩⟩ h
  · simp only [names, List.mem_cons, List.not_mem_nil, or_false, not_or] at unknown
    exact absurd ⟨fun name => absurd name unknown.1, fun name => absurd name unknown.2⟩ h
  · exact reported

/-! ## The last entry of a name -/

section IsLast

variable {α : Type} {writes : List Char → α → Prop} {default x : α}

/-- What the last entry of a name writes, or the default if the name has no entry. -/
def IsLast (name : String) (writes : List Char → α → Prop) (default : α) (entries : List (String × String)) (x : α) : Prop :=
  (∀ e ∈ entries, e.1 ≠ name) ∧ x = default ∨
    ∃ before value after, entries = before ++ (name, value) :: after ∧ (∀ e ∈ after, e.1 ≠ name) ∧ writes value.toList x

/-- One more entry of the name decides. -/
theorem isLast_concat (h : entry.1 = name) (written : writes entry.2.toList x) : IsLast name writes default (entries ++ [entry]) x := by
  obtain ⟨_, value⟩ := entry
  subst h
  exact .inr ⟨entries, value, [], rfl, by simp, written⟩

/-- One more entry of another name does not count. -/
theorem IsLast.concat (h : IsLast name writes default entries x) (other : entry.1 ≠ name) :
    IsLast name writes default (entries ++ [entry]) x := by
  rcases h with ⟨none, rfl⟩ | ⟨before, value, after, rfl, none, written⟩
  · exact .inl ⟨List.forall_mem_append.2 ⟨none, by simpa using other⟩, rfl⟩
  · exact .inr ⟨before, value, after ++ [entry], by simp, List.forall_mem_append.2 ⟨none, by simpa using other⟩, written⟩

end IsLast

/-- The settings that the last entries decide. -/
structure AreLast (entries : List (String × String)) (s : Settings) : Prop where
  epsilon : IsLast "epsilon" WritesDouble defaultEpsilon entries s.epsilon
  precision : IsLast "precision" WritesWhole defaultPrecision entries s.precision

/-- Without entries the defaults are decided on. -/
theorem areLast_nil : AreLast [] {} :=
  ⟨.inl ⟨by simp, rfl⟩, .inl ⟨by simp, rfl⟩⟩

/-! ## All entries -/

/-- An entry that can be read makes itself the last of its name. -/
theorem AreLast.step (h : AreLast entries s) (readable : Readable entry) :
    ∃ s', entered s entry = .ok s' ∧ AreLast (entries ++ [entry]) s' := by
  rcases entered_cases s entry with ⟨x, name, written, eq⟩ | ⟨n, name, written, eq⟩ | ⟨unknown, eq⟩ | ⟨-, unreadable, -⟩
  · exact ⟨_, eq, isLast_concat name written, h.precision.concat (by simp [name])⟩
  · exact ⟨_, eq, h.epsilon.concat (by simp [name]), isLast_concat name written⟩
  · simp only [names, List.mem_cons, List.not_mem_nil, or_false, not_or] at unknown
    exact ⟨s, eq, h.epsilon.concat unknown.1, h.precision.concat unknown.2⟩
  · exact absurd readable unreadable

/-- Entries that can all be read lead to what the last of each name decides. -/
theorem foldlM_of_readable (h : ∀ e ∈ entries, Readable e) : ∃ s, entries.foldlM entered {} = .ok s ∧ AreLast entries s := by
  induction entries using List.reverseRecOn with
  | nil => exact ⟨{}, rfl, areLast_nil⟩
  | append_singleton entries entry ih =>
    rw [List.forall_mem_append] at h
    obtain ⟨s, fold, last⟩ := ih h.1
    obtain ⟨s', eq, last'⟩ := last.step (h.2 entry List.mem_cons_self)
    refine ⟨s', ?_, last'⟩
    rw [List.foldlM_append, fold]
    simp [bind, Except.bind, pure, Except.pure, eq]

/-- The first entry that cannot be read is reported, whatever comes after it. -/
theorem foldlM_of_not_readable (h : ∀ e ∈ before, Readable e) (unreadable : ¬Readable entry) :
    (before ++ entry :: after).foldlM entered {} = .error (.unreadable entry.1 entry.2) := by
  obtain ⟨s, fold, -⟩ := foldlM_of_readable h
  rw [List.foldlM_append, fold]
  simp [bind, Except.bind, entered_of_not_readable unreadable]

/-- Entries of other names do not count. -/
theorem foldlM_filter (entries : List (String × String)) (s : Settings) :
    (entries.filter (·.1 ∈ names)).foldlM entered s = entries.foldlM entered s := by
  induction entries generalizing s with
  | nil => rfl
  | cons entry entries ih =>
    by_cases known : entry.1 ∈ names
    · rw [List.filter_cons_of_pos (by simpa using known), List.foldlM_cons, List.foldlM_cons]
      exact congrArg _ (funext ih)
    · rw [List.filter_cons_of_neg (by simpa using known), List.foldlM_cons, entered_of_notMem known]
      exact ih s

/-! ## The outcome -/

/-- What comes of entries: they are taken in, and the settings that they lead to are checked. -/
def ofEntries (entries : List (String × String)) : Except SettingsError Settings := do
  let s ← entries.foldlM entered {}
  s.validate
  return s

/-- The work on entries comes to just that. -/
theorem result_entriesWork (entries : List (String × String)) : (entriesWork entries).result = ofEntries entries := by
  simp only [entriesWork, Work.result_bind, Work.result_foldlM, Work.result_ofExcept, Work.result_pure]
  rfl

/-- What the entries lead to is checked in the end. -/
theorem ofEntries_of_foldlM (h : entries.foldlM entered {} = .ok s) : ofEntries entries = s.validate.map fun _ => s := by
  unfold ofEntries
  rw [h]
  cases check : s.validate with
  | error e => simp [bind, Except.bind, Except.map, check]
  | ok _ => simp [bind, Except.bind, Except.map, pure, Except.pure, check]

/-- What entries lead to has passed the check. -/
theorem validate_of_ofEntries (h : ofEntries entries = .ok s) : s.validate = .ok () := by
  unfold ofEntries at h
  cases fold : entries.foldlM entered {} with
  | error e => simp [fold, bind, Except.bind] at h
  | ok s' =>
    cases check : s'.validate with
    | error e => simp [fold, check, bind, Except.bind] at h
    | ok _ =>
      simp only [fold, check, bind, Except.bind, pure, Except.pure, Except.ok.injEq] at h
      rw [← h, check]

/-- What entries lead to does not depend on those of unknown names. -/
theorem ofEntries_filter (entries : List (String × String)) : ofEntries (entries.filter (·.1 ∈ names)) = ofEntries entries := by
  unfold ofEntries
  rw [foldlM_filter]

/-- The settings of a text are those of the entries that count. -/
theorem map_ofText {text : String} {items : List Ini.Item} (h : Ini.read text = .ok items) :
    (ofText text).map (·.1) = ofEntries (relevant items) := by
  have read : (textWork text).result = (itemsWork items).result := by
    rw [textWork, h]
    rfl
  rw [ofText, Work.map_fst_outcome, read, itemsWork, relevant]
  cases Ini.settings? sectionName items with
  | none => rfl
  | some entries => rw [Option.getD_some, ofEntries_filter, ← result_entriesWork]

/-- The settings of a text depend on the entries that count and on nothing else that the text contains. The first of them that cannot be
read is reported, even if a later one of the same name could be. Otherwise the last entry of each name decides over the default, and the
outcome is given back exactly if its angle is positive and finite and it has no more than 15 decimal places; the angle is reported first.
So settings that are read can be used. -/
theorem ofText_takes_last_entries {text : String} {items : List Ini.Item} (h : Ini.read text = .ok items) :
    (∀ text' items', Ini.read text' = .ok items' → relevant items' = relevant items →
      (ofText text').map (·.1) = (ofText text).map (·.1)) ∧
    (∀ text' items', Ini.read text' = .ok items' → Relation.EqvGen Adds items items' →
      (ofText text').map (·.1) = (ofText text).map (·.1)) ∧
    (∀ before entry after, relevant items = before ++ entry :: after → (∀ e ∈ before, Readable e) → ¬Readable entry →
      (ofText text).map (·.1) = .error (.unreadable entry.1 entry.2)) ∧
    ((∀ e ∈ relevant items, Readable e) → ∃ s, AreLast (relevant items) s ∧
      ((ofText text).map (·.1) = .ok s ↔ (s.epsilon.isFinite = true ∧ 0 < s.epsilon) ∧ s.precision ≤ 15) ∧
      (¬(s.epsilon.isFinite = true ∧ 0 < s.epsilon) → (ofText text).map (·.1) = .error (.epsilon s.epsilon)) ∧
      (s.epsilon.isFinite = true ∧ 0 < s.epsilon → 15 < s.precision →
        (ofText text).map (·.1) = .error (.precision s.precision))) ∧
    ∀ s, (ofText text).map (·.1) = .ok s → s.validate = .ok () := by
  rw [map_ofText h]
  refine ⟨?_, ?_, ?_, ?_, ?_⟩
  · intro text' items' h' same
    rw [map_ofText h', same]
  · intro text' items' h' moves
    rw [map_ofText h', relevant_eq_of_eqvGen moves]
  · intro before entry after parts readable unreadable
    rw [parts, ofEntries, foldlM_of_not_readable readable unreadable]
    rfl
  · intro readable
    obtain ⟨s, fold, last⟩ := foldlM_of_readable readable
    have outcome := ofEntries_of_foldlM fold
    refine ⟨s, last, ?_, ?_, ?_⟩
    · rw [outcome, ← validate_eq_ok]
      cases s.validate <;> simp [Except.map]
    · intro refused
      rw [outcome, validate_of_epsilon refused]
      rfl
    · intro kept many
      rw [outcome, validate_of_precision kept many]
      rfl
  · exact fun s => validate_of_ofEntries

/-- A text whose third entry cannot be read, although the fourth of the same name could be. -/
def overriddenText : String := "[bbox]\ncolor = red\nprecision = 3\nepsilon = tiny\nepsilon = 1e-6\n"

/-- The first entry that cannot be read is reported although it would be overridden. -/
theorem first_unreadable_entry : ∃ items, Ini.read overriddenText = .ok items ∧
    (ofText overriddenText).map (·.1) = .error (.unreadable "epsilon" "tiny") := by
  let items : List Ini.Item :=
    [.header "bbox", .setting "color" "red", .setting "precision" "3", .setting "epsilon" "tiny", .setting "epsilon" "1e-6"]
  have read : Ini.read overriddenText = .ok items := by
    have some : (Ini.read overriddenText).toOption = .some items := by decide +kernel
    cases result : Ini.read overriddenText with
    | error e => simp [result, Except.toOption] at some
    | ok r => simpa [result, Except.toOption] using some
  refine ⟨items, read, ?_⟩
  obtain ⟨-, -, first, -⟩ := ofText_takes_last_entries read
  refine first [("precision", "3")] ("epsilon", "tiny") [("epsilon", "1e-6")] rfl ?_ ?_
  · rintro e he
    rw [List.mem_singleton] at he
    subst he
    exact ⟨nofun, fun _ => ⟨3, wholeOfChars?_trim.1 rfl⟩⟩
  · rintro ⟨epsilon, -⟩
    obtain ⟨x, written⟩ := epsilon rfl
    have none : Decimal.doubleOfChars? (Text.trim "tiny".toList) = none := rfl
    rw [doubleOfChars?_trim.2 written] at none
    cases none

end GlobeDrag.Settings
