import GlobeDrag.Ini.Value

/-!
# INI texts

Reads texts of sections and settings:

```text
[section]
; a remark on a line of its own
key = value
```

A key may span lines. `Ini.read` gives the headers and settings of a text in their order,
`Ini.settings?` the settings of one section.
-/

namespace GlobeDrag.Ini

/-- What a text is made of. -/
inductive Item where
  /-- The beginning of a section. -/
  | header (name : String)
  /-- A key with its value. -/
  | setting (key value : String)
deriving DecidableEq

/-- What was read so far: the items, the last one first, and the key that waits for its value. -/
structure Progress where
  key : List Char := []
  items : List Item := []

/-- Where reading goes on, and whether blanks are passed over there first. -/
structure Turn where
  progress : Progress
  place : Cursor
  skipping : Bool := true

/-! ## Items -/

/-- The characters that end a key. -/
def keyEnds : List (Option Char) := [some '=', some ':']

/-- Reads a header whose opening bracket is the current character. -/
def header (p : Progress) (c : Cursor) : Except Error Turn := do
  let (name, d) ← readTo [some ']'] [] c.next
  return { progress := { p with items := .header (String.ofList (Text.trim name)) :: p.items }, place := d.next }

/-- Reads a key that begins at the current character. -/
def key (p : Progress) (c : Cursor) : Except Error Turn := do
  let (k, d) ← readTo keyEnds [] c
  return { progress := { p with key := Text.trim k }, place := d }

/-- Reads what is on an indented line, whose first blank is the current character. A line of blanks alone is passed over. A key
without an end is passed over too. -/
def indented (p : Progress) (c : Cursor) : Except Error Turn :=
  let d := skipWhile (fun k => k = ' ' ∨ k = '\t') c
  match d.current with
  | some '[' => header p d
  | some '\n' => .ok { progress := p, place := d.next, skipping := false }
  | some '\r' => .ok { progress := p, place := d.next, skipping := false }
  | _ =>
    match key p d with
    | .ok t => .ok t
    | .error e => .ok { progress := p, place := e.place }

/-- Reads the value of the key that waits for it, behind the separator that is the current character. -/
def setting (p : Progress) (c : Cursor) : Except Error Turn :=
  if p.key = [] then .error ⟨.missingKey, c⟩
  else do
    let (v, d) ← value c
    return { progress := { items := .setting (String.ofList p.key) (String.ofList v) :: p.items }, place := d }

/-- Reads what begins with the current character `k`. -/
def turn (p : Progress) (c : Cursor) (k : Char) : Except Error Turn :=
  if k = ';' ∨ k = '#' then
    if 1 < c.column then .error ⟨.inlineRemark, c⟩ else .ok { progress := p, place := skipRemark c }
  else if k = '[' then header p c
  else if k = '=' ∨ k = ':' then setting p c
  else if k = ' ' ∨ k = '\t' then indented p c
  else if isBreak k then .ok { progress := p, place := c.next }
  else key p c

/-! ## Every turn uses up text -/

/-- A header takes at least the character it begins with. -/
theorem header_le {p : Progress} {c : Cursor} {t : Turn} (h : header p c = .ok t) :
    t.place.rest.length ≤ c.rest.length - 1 := by
  unfold header at h
  cases hr : readTo [some ']'] [] c.next with
  | error e => simp [hr, bind, Except.bind] at h
  | ok q =>
    have hq : readTo [some ']'] [] c.next = .ok (q.1, q.2) := hr
    simp only [hr, bind, Except.bind] at h
    cases h
    have := readTo_le hq
    simp only [Cursor.rest_next, List.length_tail] at *
    omega

/-- A key that is read ends at one of the characters that end keys. -/
theorem key_ok {p : Progress} {c : Cursor} {t : Turn} (h : key p c = .ok t) :
    ∃ k, readTo keyEnds [] c = .ok (k, t.place) := by
  unfold key at h
  cases hr : readTo keyEnds [] c with
  | error e => simp [hr, bind, Except.bind] at h
  | ok q =>
    simp only [hr, bind, Except.bind] at h
    cases h
    exact ⟨q.1, rfl⟩

/-- A key fails only where reading up to its end fails. -/
theorem key_error {p : Progress} {c : Cursor} {e : Error} (h : key p c = .error e) : readTo keyEnds [] c = .error e := by
  unfold key at h
  cases hr : readTo keyEnds [] c with
  | error e' =>
    simp only [hr, bind, Except.bind] at h
    cases h
    rfl
  | ok q =>
    simp only [hr, bind, Except.bind] at h
    cases h

/-- Indented text takes at least the blank it begins with. -/
theorem indented_shorter {p : Progress} {c : Cursor} {t : Turn} {k : Char} (hk : c.current = some k)
    (hb : k = ' ' ∨ k = '\t') (h : indented p c = .ok t) : t.place.rest.length < c.rest.length := by
  have hs : (skipWhile (fun k => k = ' ' ∨ k = '\t') c).rest.length < c.rest.length :=
    skipWhile_shorter hk (by simpa using hb)
  unfold indented at h
  simp only at h
  split at h
  · have := header_le h
    omega
  · cases h
    simp only [Cursor.rest_next, List.length_tail]
    omega
  · cases h
    simp only [Cursor.rest_next, List.length_tail]
    omega
  · split at h
    · next ht =>
      cases h
      obtain ⟨_, hr⟩ := key_ok ht
      have := readTo_le hr
      omega
    · next he =>
      cases h
      have := readTo_error_le (key_error he)
      exact Nat.lt_of_le_of_lt this hs

/-- Every turn of the reader takes at least one character. -/
theorem turn_shorter {p : Progress} {c : Cursor} {t : Turn} {k : Char} (hk : c.current = some k)
    (h : turn p c k = .ok t) : t.place.rest.length < c.rest.length := by
  have hpos : 0 < c.rest.length := by
    unfold Cursor.current at hk
    cases hr : c.rest with
    | nil =>
      rw [hr] at hk
      cases hk
    | cons a r => exact Nat.succ_pos _
  unfold turn at h
  split at h
  · split at h
    · cases h
    · cases h
      have := skipWhile_le (· ≠ '\n') c
      simp only [skipRemark, Cursor.rest_next, List.length_tail]
      omega
  · split at h
    · have := header_le h
      omega
    · split at h
      · unfold setting at h
        split at h
        · cases h
        · cases hv : value c with
          | error e => simp [hv, bind, Except.bind] at h
          | ok q =>
            have hq : value c = .ok (q.1, q.2) := hv
            simp only [hv, bind, Except.bind] at h
            cases h
            have := value_le hq
            simp only
            omega
      · next hsep =>
        split at h
        · next hb => exact indented_shorter hk hb h
        · split at h
          · cases h
            simp only [Cursor.rest_next, List.length_tail]
            omega
          · obtain ⟨_, hr⟩ := key_ok h
            refine readTo_shorter ?_ hr
            rw [hk]
            simpa [keyEnds] using hsep

/-! ## Texts -/

/-- Reads items to the end of the text. -/
def items (p : Progress) (c : Cursor) : Except Error (List Item) :=
  match _h : c.current with
  | none => .ok p.items.reverse
  | some k =>
    match _ht : turn p c k with
    | .error e => .error e
    | .ok t => items t.progress (if t.skipping then skipGap t.place else t.place)
termination_by c.rest.length
decreasing_by
  have h1 := turn_shorter _h _ht
  have h2 := skipGap_le t.place
  split <;> omega

/-- Reads a text. -/
def read (text : String) : Except Error (List Item) :=
  items {} (.ofText text)

/-- The settings in front of the next header. -/
def leading : List Item → List (String × String)
  | .setting key value :: r => (key, value) :: leading r
  | _ => []

/-- The settings of the first section of the given name. -/
def settings? (name : String) : List Item → Option (List (String × String))
  | [] => none
  | .header n :: r => if n = name then some (leading r) else settings? name r
  | .setting .. :: r => settings? name r

end GlobeDrag.Ini
