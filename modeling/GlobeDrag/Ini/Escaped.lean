import GlobeDrag.Ini.Error

/-!
# Escaped characters in INI texts

A backslash escapes the character after it in section names, keys and values. `readTo` reads up to one of a number of characters.

Main statement: `placeOf_readTo_le` (reading never goes back, whether it succeeds or not).
-/

namespace GlobeDrag.Ini

/-- The character that a letter stands for after a backslash. -/
def unescape : Char → Char
  | '0' => '\x00'
  | 'a' => '\x07'
  | 'b' => '\x08'
  | 't' => '\t'
  | 'r' => '\r'
  | 'n' => '\n'
  | c => c

/-- The value of a hexadecimal digit. -/
def hexDigit? (c : Char) : Option Nat :=
  if c.isDigit then some (c.toNat - '0'.toNat)
  else if 'a' ≤ c ∧ c ≤ 'f' then some (c.toNat - 'a'.toNat + 10)
  else if 'A' ≤ c ∧ c ≤ 'F' then some (c.toNat - 'A'.toNat + 10)
  else none

/-- The character whose number is written in hexadecimal digits, with an optional plus sign in front. -/
def coded? (cs : List Char) : Option Char := do
  let ds := if cs.head? = some '+' then cs.tail else cs
  guard (ds ≠ [])
  let n ← ds.foldlM (fun n c => (hexDigit? c).map (16 * n + ·)) 0
  if h : n.isValidChar then return Char.ofNatAux n h else failure

/-- Reads the `count` characters of a code that come after the current one; the last of them is the current one in the end. -/
def code (ends : List (Option Char)) (before : List Char) (c : Cursor) : Nat → Except Error (List Char × Cursor)
  | 0 => .ok (before.reverse, c)
  | count + 1 =>
    let c := c.next
    match c.current with
    | none => .error ⟨.unclosed ends, c⟩
    | some '\\' =>
      let c := c.next
      if c.current = some '\n' then code ends ('\\' :: before) c count
      else .error ⟨.brokenCode c.current, c⟩
    | some k => code ends (k :: before) c count

/-- How many characters the code of a character has. -/
def codeLength : Nat := 4

/-- Reads the code behind the letter that is the current character. -/
def codedCharacter (ends : List (Option Char)) (c : Cursor) : Except Error (Char × Cursor) := do
  let (cs, c) ← code ends [] c codeLength
  match coded? cs with
  | some k => return (k, c)
  | none => throw ⟨.unknownCode, c⟩

/-- The digits of a code are taken from what is left. -/
theorem code_le {ends : List (Option Char)} {before cs : List Char} {c d : Cursor} {count : Nat}
    (h : code ends before c count = .ok (cs, d)) : d.rest.length ≤ c.rest.length := by
  induction count generalizing before c with
  | zero =>
    cases h
    exact Nat.le_refl _
  | succ n ih =>
    rw [code] at h
    simp only at h
    split at h
    · cases h
    · split at h
      · have := ih h
        simp only [Cursor.rest_next, List.length_tail] at this
        omega
      · cases h
    · have := ih h
      simp only [Cursor.rest_next, List.length_tail] at this
      omega

/-- So is a character that is given by its code. -/
theorem codedCharacter_le {ends : List (Option Char)} {c d : Cursor} {k : Char} (h : codedCharacter ends c = .ok (k, d)) :
    d.rest.length ≤ c.rest.length := by
  unfold codedCharacter at h
  cases hc : code ends [] c codeLength with
  | error e => simp [hc, bind, Except.bind] at h
  | ok p =>
    have hp : code ends [] c codeLength = .ok (p.1, p.2) := hc
    simp only [hc, bind, Except.bind] at h
    split at h
    · cases h
      exact code_le hp
    · cases h

/-- Reads up to one of the given characters, which becomes the current one; `before` holds what was read, the last character
first. -/
def readTo (ends : List (Option Char)) (before : List Char) (c : Cursor) : Except Error (List Char × Cursor) :=
  if c.current ∈ ends then .ok (before.reverse, c)
  else
    match _h : c.rest with
    | [] => .error ⟨.unclosed ends, c⟩
    | k :: _ =>
      if k = '\\' then
        match c.next.current with
        | none => readTo ends ('\\' :: before) c.next
        | some 'x' =>
          match _hc : codedCharacter ends c.next with
          | .error e => .error e
          | .ok (k, d) => readTo ends (k :: before) d.next
        | some '\n' => readTo ends before c.next.next
        | some k => readTo ends (unescape k :: before) c.next.next
      else readTo ends (k :: before) c.next
termination_by c.rest.length
decreasing_by
  · simp [_h]
  · have := codedCharacter_le _hc
    simp only [Cursor.rest_next, List.length_tail, _h, List.length_cons] at *
    omega
  · simp only [Cursor.rest_next, List.length_tail, _h, List.length_cons]
    omega
  · simp only [Cursor.rest_next, List.length_tail, _h, List.length_cons]
    omega
  · simp [_h]

/-- The place that reading has come to, whether it succeeded or not. -/
def placeOf : Except Error (List Char × Cursor) → Cursor
  | .ok (_, c) => c
  | .error e => e.place

/-- Where the digits of a code end, no more is left than before. -/
theorem placeOf_code_le (ends : List (Option Char)) (before : List Char) (c : Cursor) (count : Nat) :
    (placeOf (code ends before c count)).rest.length ≤ c.rest.length := by
  induction count generalizing before c with
  | zero => exact Nat.le_refl _
  | succ n ih =>
    rw [code]
    simp only
    split
    · simp only [placeOf, Cursor.rest_next, List.length_tail]
      omega
    · split
      · have := ih ('\\' :: before) c.next.next
        simp only [Cursor.rest_next, List.length_tail] at this
        omega
      · simp only [placeOf, Cursor.rest_next, List.length_tail]
        omega
    · next k _ _ =>
      have := ih (k :: before) c.next
      simp only [Cursor.rest_next, List.length_tail] at this
      omega

/-- A code that is no character is at fault further on. -/
theorem codedCharacter_error_le {ends : List (Option Char)} {c : Cursor} {e : Error} (h : codedCharacter ends c = .error e) :
    e.place.rest.length ≤ c.rest.length := by
  have hp := placeOf_code_le ends [] c codeLength
  unfold codedCharacter at h
  cases hc : code ends [] c codeLength with
  | error e' =>
    simp only [hc, bind, Except.bind] at h
    cases h
    rw [hc] at hp
    exact hp
  | ok p =>
    simp only [hc, bind, Except.bind] at h
    rw [hc] at hp
    split at h
    · cases h
    · cases h
      exact hp

/-- Reading never goes back. -/
theorem placeOf_readTo_le (ends : List (Option Char)) (before : List Char) (c : Cursor) :
    (placeOf (readTo ends before c)).rest.length ≤ c.rest.length := by
  fun_induction readTo ends before c with
  | case1 => exact Nat.le_refl _
  | case2 => exact Nat.le_refl _
  | case3 =>
    rename_i ih
    simp only [Cursor.rest_next, List.length_tail] at ih
    omega
  | case4 =>
    rename_i hc _
    have := codedCharacter_error_le hc
    simp only [placeOf, Cursor.rest_next, List.length_tail] at *
    omega
  | case5 =>
    rename_i hc _ ih
    have := codedCharacter_le hc
    simp only [Cursor.rest_next, List.length_tail] at *
    omega
  | case6 =>
    rename_i ih
    simp only [Cursor.rest_next, List.length_tail] at ih
    omega
  | case7 =>
    rename_i ih
    simp only [Cursor.rest_next, List.length_tail] at ih
    omega
  | case8 =>
    rename_i ih
    simp only [Cursor.rest_next, List.length_tail] at ih
    omega

/-- What is read up to an end is taken from what is left. -/
theorem readTo_le {ends : List (Option Char)} {before cs : List Char} {c d : Cursor}
    (h : readTo ends before c = .ok (cs, d)) : d.rest.length ≤ c.rest.length := by
  have := placeOf_readTo_le ends before c
  rw [h] at this
  exact this

/-- Where reading does not end at once, it uses up text. -/
theorem readTo_shorter {ends : List (Option Char)} {before cs : List Char} {c d : Cursor} (hc : c.current ∉ ends)
    (h : readTo ends before c = .ok (cs, d)) : d.rest.length < c.rest.length := by
  unfold readTo at h
  rw [if_neg hc] at h
  split at h
  · cases h
  · next k r hr =>
    rw [hr, List.length_cons]
    split at h
    · split at h
      · have := readTo_le h
        simp only [Cursor.rest_next, hr, List.tail_cons] at this
        omega
      · split at h
        · cases h
        · next hcode =>
          have := readTo_le h
          have := codedCharacter_le hcode
          simp only [Cursor.rest_next, hr, List.tail_cons, List.length_tail] at *
          omega
      · have := readTo_le h
        simp only [Cursor.rest_next, hr, List.tail_cons, List.length_tail] at this
        omega
      · have := readTo_le h
        simp only [Cursor.rest_next, hr, List.tail_cons, List.length_tail] at this
        omega
    · have := readTo_le h
      simp only [Cursor.rest_next, hr, List.tail_cons] at this
      omega

/-- Reading up to an end fails further on. -/
theorem readTo_error_le {ends : List (Option Char)} {before : List Char} {c : Cursor} {e : Error}
    (h : readTo ends before c = .error e) : e.place.rest.length ≤ c.rest.length := by
  have := placeOf_readTo_le ends before c
  rw [h] at this
  exact this

end GlobeDrag.Ini
