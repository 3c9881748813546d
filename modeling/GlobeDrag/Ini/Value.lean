import GlobeDrag.Ini.Escaped

/-!
# Blanks and values in INI texts

What stands between the items of a text, and the values behind their keys. A value may hold quoted parts.
-/

namespace GlobeDrag.Ini

/-! ## Blanks and remarks -/

/-- A line break or a carriage return. -/
def isBreak (c : Char) : Bool :=
  c = '\n' ∨ c = '\r'

/-- The place after the characters of a class. -/
def skipWhile (p : Char → Bool) (c : Cursor) : Cursor :=
  match _h : c.rest with
  | [] => c
  | k :: _ => if p k then skipWhile p c.next else c
termination_by c.rest.length
decreasing_by simp [_h]

/-- Skipping leaves no more than there was. -/
theorem skipWhile_le (p : Char → Bool) (c : Cursor) : (skipWhile p c).rest.length ≤ c.rest.length := by
  fun_induction skipWhile p c with
  | case1 => exact Nat.le_refl _
  | case2 =>
    rename_i ih
    simp only [Cursor.rest_next, List.length_tail] at ih
    omega
  | case3 => exact Nat.le_refl _

/-- Skipping takes a character that is to be skipped. -/
theorem skipWhile_shorter {p : Char → Bool} {c : Cursor} {k : Char} (hk : c.current = some k) (hp : p k = true) :
    (skipWhile p c).rest.length < c.rest.length := by
  unfold skipWhile
  unfold Cursor.current at hk
  split
  · next h =>
    rw [h] at hk
    cases hk
  · next a r h =>
    rw [h] at hk
    cases hk
    rw [if_pos hp]
    have := skipWhile_le p c.next
    simp only [Cursor.rest_next, h, List.tail_cons] at this
    rw [h, List.length_cons]
    omega

/-- The place after the blanks between two items. A blank or a tab at the beginning of a line is left, because it says that the
line is indented. -/
def skipGap (c : Cursor) : Cursor :=
  match _h : c.rest with
  | [] => c
  | k :: _ =>
    if isBreak k then
      if c.next.current = some ' ' ∨ c.next.current = some '\t' then c.next else skipGap c.next
    else if Text.isBlank k then skipGap c.next
    else c
termination_by c.rest.length
decreasing_by all_goals simp [_h]

/-- A gap between two lines is taken from what is left. -/
theorem skipGap_le (c : Cursor) : (skipGap c).rest.length ≤ c.rest.length := by
  fun_induction skipGap c with
  | case1 => exact Nat.le_refl _
  | case2 =>
    simp only [Cursor.rest_next, List.length_tail]
    omega
  | case3 =>
    rename_i ih
    simp only [Cursor.rest_next, List.length_tail] at ih
    omega
  | case4 =>
    rename_i ih
    simp only [Cursor.rest_next, List.length_tail] at ih
    omega
  | case5 => exact Nat.le_refl _

/-- The place after the line of a remark. -/
def skipRemark (c : Cursor) : Cursor :=
  (skipWhile (· ≠ '\n') c).next

/-! ## Values -/

/-- The characters that end an unquoted value: a line break, a carriage return, or the end of the text. -/
def lineEnds : List (Option Char) := [some '\n', some '\r', none]

/-- Whether a character opens and closes a quoted part. -/
def isQuote (c : Char) : Bool :=
  c = '"' ∨ c = '\''

/-- Reads the parts of a value: quoted parts as long as there are any, then the rest of the line. Blanks at the ends of the rest
of the line are cut off, those in front of it only if it is all of the value. -/
def valueParts (before : Option (List Char)) (c : Cursor) : Except Error (List Char × Cursor) :=
  match _h : c.rest with
  | [] => .ok (before.getD [], c)
  | q :: _ =>
    if isQuote q then
      match _hr : readTo [some q] [] c.next with
      | .error e => .error e
      | .ok (part, d) => valueParts (some (before.getD [] ++ part)) d.next
    else
      match readTo lineEnds [] c with
      | .error e => .error e
      | .ok (part, d) =>
        match before with
        | none => .ok (Text.trim part, d)
        | some quoted => .ok (quoted ++ Text.trimEnd part, d)
termination_by c.rest.length
decreasing_by
  have := readTo_le _hr
  simp only [Cursor.rest_next, List.length_tail, _h, List.length_cons] at *
  omega

/-- Reads the value behind the separator that is the current character. -/
def value (c : Cursor) : Except Error (List Char × Cursor) :=
  valueParts none (skipWhile (fun k => Text.isBlank k && !isBreak k) c.next)

/-- The lines of a value are taken from what is left. -/
theorem valueParts_le {before : Option (List Char)} {cs : List Char} {c d : Cursor}
    (h : valueParts before c = .ok (cs, d)) : d.rest.length ≤ c.rest.length := by
  fun_induction valueParts before c with
  | case1 =>
    cases h
    exact Nat.le_refl _
  | case2 => cases h
  | case3 =>
    rename_i hr ih
    have := readTo_le hr
    have := ih h
    simp only [Cursor.rest_next, List.length_tail] at *
    omega
  | case4 => cases h
  | case5 =>
    rename_i hr
    cases h
    exact readTo_le hr
  | case6 =>
    rename_i hr _
    cases h
    exact readTo_le hr

/-- A value takes at least the character before it. -/
theorem value_le {c d : Cursor} {cs : List Char} (h : value c = .ok (cs, d)) : d.rest.length ≤ c.rest.length - 1 := by
  have h1 := valueParts_le h
  have h2 := skipWhile_le (fun k => Text.isBlank k && !isBreak k) c.next
  simp only [Cursor.rest_next, List.length_tail] at h2
  omega

end GlobeDrag.Ini
