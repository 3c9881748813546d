import GlobeDrag.Json.Reading

/-!
# Reading JSON strings

`text` reads a string whose opening quote was seen, `skipText` passes over one. Only the former looks at whether the halves of
surrogate pairs belong together, and only the former counts a control character that it refuses as read.
-/

namespace GlobeDrag.Json

/-- The value of a hexadecimal digit. -/
def hexDigit? (c : Char) : Option Nat :=
  if '0' ≤ c ∧ c ≤ '9' then some (c.toNat - '0'.toNat)
  else if 'a' ≤ c ∧ c ≤ 'f' then some (c.toNat - 'a'.toNat + 10)
  else if 'A' ≤ c ∧ c ≤ 'F' then some (c.toNat - 'A'.toNat + 10)
  else none

/-- The value of four hexadecimal digits. -/
def hexWord? (a b c d : Char) : Option Nat := do
  return ((← hexDigit? a) * 4096 + (← hexDigit? b) * 256 + (← hexDigit? c) * 16 + (← hexDigit? d))

/-- How many octets the first four characters of a text take. -/
def leadingOctets (s : List Char) : Nat :=
  (s.take 4).foldl (fun n c => n + c.utf8Size) 0

/-- Reads four hexadecimal digits. A text with fewer than four octets left ends too early. -/
def hexWord : Reader Nat
  | a :: b :: c :: d :: r =>
    match hexWord? a b c d with
    | some n => .ok (n, r)
    | none => .error ⟨.badEscape, a :: b :: c :: d :: r, 4⟩
  | s => if leadingOctets s < 4 then .error (.reached (.unfinished .string) []) else .error ⟨.badEscape, s, 4⟩

/-- Hexadecimal digits are taken from what is left. -/
theorem hexWord_shorter {s r : List Char} {n : Nat} (h : hexWord s = .ok (n, r)) : r.length < s.length := by
  unfold hexWord at h
  split at h
  · split at h
    · cases h
      simp only [List.length_cons]
      omega
    · cases h
  · split at h <;> cases h

/-- The character that the letter of a short escape stands for. -/
def shortEscape? : Char → Option Char
  | '"' => some '"'
  | '\\' => some '\\'
  | '/' => some '/'
  | 'b' => some '\x08'
  | 'f' => some '\x0c'
  | 'n' => some '\n'
  | 'r' => some '\r'
  | 't' => some '\t'
  | _ => none

/-- Reads the second half of a surrogate pair, escaped like the first. -/
def lowSurrogate : Reader Nat
  | [] => .error (.reached (.unfinished .string) [])
  | '\\' :: [] => .error (.reached (.unfinished .string) [])
  | '\\' :: 'u' :: r => do
    let (n, rest) ← hexWord r
    if 0xdc00 ≤ n ∧ n ≤ 0xdfff then return (n, rest) else throw (.reached .loneSurrogate rest)
  | '\\' :: r => .error (.seen .halfEscape r)
  | s => .error (.seen .halfEscape s)

/-- Reads the character whose number begins here, in one escape or in two. -/
def numbered (s : List Char) : Except Failure (Char × List Char) := do
  let (n, rest) ← hexWord s
  if 0xdc00 ≤ n ∧ n ≤ 0xdfff then throw (.reached .loneSurrogate rest)
  else if 0xd800 ≤ n ∧ n ≤ 0xdbff then
    let (m, rest) ← lowSurrogate rest
    return (Char.ofNat (0x10000 + (n - 0xd800) * 0x400 + (m - 0xdc00)), rest)
  else return (Char.ofNat n, rest)

/-- Reads what follows a backslash. -/
def escaped : Reader Char
  | [] => .error (.reached (.unfinished .string) [])
  | c :: r =>
    if c = 'u' then numbered r
    else match shortEscape? c with
      | some d => .ok (d, r)
      | none => .error (.seen .badEscape (c :: r))

/-- Passes over what follows a backslash. -/
def skipEscaped : List Char → Except Failure (List Char)
  | [] => .error (.reached (.unfinished .string) [])
  | c :: r =>
    if c = 'u' then (hexWord r).map (·.2)
    else if (shortEscape? c).isSome then .ok r
    else .error (.seen .badEscape (c :: r))

/-- The second half of a character in two halves is taken from what is left. -/
theorem lowSurrogate_shorter {s r : List Char} {n : Nat} (h : lowSurrogate s = .ok (n, r)) : r.length < s.length := by
  unfold lowSurrogate at h
  split at h
  · cases h
  · cases h
  · next t =>
    cases hw : hexWord t with
    | error e => simp [hw, bind, Except.bind] at h
    | ok p =>
      simp only [hw, bind, Except.bind] at h
      split at h
      · cases h
        have := hexWord_shorter (r := p.2) (n := p.1) hw
        simp only [List.length_cons]
        omega
      · cases h
  · cases h
  · cases h

/-- A character that is given by its number takes its digits. -/
theorem numbered_shorter {s r : List Char} {c : Char} (h : numbered s = .ok (c, r)) : r.length < s.length := by
  unfold numbered at h
  cases hw : hexWord s with
  | error e => simp [hw, bind, Except.bind] at h
  | ok p =>
    have hp := hexWord_shorter (r := p.2) (n := p.1) hw
    simp only [hw, bind, Except.bind] at h
    split at h
    · cases h
    · split at h
      · cases hl : lowSurrogate p.2 with
        | error e => simp [hl] at h
        | ok q =>
          simp only [hl, pure, Except.pure, Except.ok.injEq, Prod.mk.injEq] at h
          obtain ⟨-, rfl⟩ := h
          have := lowSurrogate_shorter (r := q.2) (n := q.1) hl
          omega
      · simp only [pure, Except.pure, Except.ok.injEq, Prod.mk.injEq] at h
        obtain ⟨-, rfl⟩ := h
        exact hp

/-- An escaped character takes at least the one behind the backslash. -/
theorem escaped_shorter {s r : List Char} {c : Char} (h : escaped s = .ok (c, r)) : r.length < s.length := by
  cases s with
  | nil => cases h
  | cons d t =>
    rw [escaped] at h
    split at h
    · have := numbered_shorter h
      simp only [List.length_cons]
      omega
    · split at h
      · cases h
        exact Nat.lt_succ_self _
      · cases h

/-- So does one that is skipped. -/
theorem skipEscaped_shorter {s r : List Char} (h : skipEscaped s = .ok r) : r.length < s.length := by
  cases s with
  | nil => cases h
  | cons d t =>
    rw [skipEscaped] at h
    split at h
    · cases hw : hexWord t with
      | error e =>
        rw [hw] at h
        cases h
      | ok p =>
        rw [hw] at h
        cases h
        have := hexWord_shorter (r := p.2) (n := p.1) hw
        simp only [List.length_cons]
        omega
    · split at h
      · cases h
        exact Nat.lt_succ_self _
      · cases h

/-- Reads the characters of a string up to its closing quote; `before` holds those already read, the last one first. -/
def characters (before : List Char) : Reader (List Char)
  | [] => .error (.reached (.unfinished .string) [])
  | c :: r =>
    if c = '"' then .ok (before.reverse, r)
    else if c = '\\' then
      match _h : escaped r with
      | .error e => .error e
      | .ok (d, rest) => characters (d :: before) rest
    else if c.toNat < 0x20 then .error (.seen .controlCharacter (c :: r))
    else characters (c :: before) r
termination_by s => s.length
decreasing_by
  · have := escaped_shorter _h
    simp only [List.length_cons]
    omega
  · exact Nat.lt_succ_self _

/-- Reads a string whose opening quote was seen. -/
def text (s : List Char) : Except Failure (String × List Char) :=
  (characters [] s).map fun (cs, r) => (String.ofList cs, r)

/-- Passes over a string whose opening quote was seen. -/
def skipText : List Char → Except Failure (List Char)
  | [] => .error (.reached (.unfinished .string) [])
  | c :: r =>
    if c = '"' then .ok r
    else if c = '\\' then
      match _h : skipEscaped r with
      | .error e => .error e
      | .ok rest => skipText rest
    else if c.toNat < 0x20 then .error (.reached .controlCharacter (c :: r))
    else skipText r
termination_by s => s.length
decreasing_by
  · have := skipEscaped_shorter _h
    simp only [List.length_cons]
    omega
  · exact Nat.lt_succ_self _

/-- The characters of a string take at least the quote that ends it. -/
theorem characters_shorter {before s r cs : List Char} (h : characters before s = .ok (cs, r)) : r.length < s.length := by
  fun_induction characters before s with
  | case1 => cases h
  | case2 =>
    cases h
    exact Nat.lt_succ_self _
  | case3 => cases h
  | case4 before t d rest he _ ih =>
    have := ih h
    have := escaped_shorter he
    simp only [List.length_cons]
    omega
  | case5 => cases h
  | case6 before c t _ _ _ ih =>
    have := ih h
    simp only [List.length_cons]
    omega

/-- A string takes at least its quotes. -/
theorem text_shorter {s r : List Char} {t : String} (h : text s = .ok (t, r)) : r.length < s.length := by
  unfold text at h
  cases hc : characters [] s with
  | error e =>
    rw [hc] at h
    cases h
  | ok p =>
    rw [hc] at h
    cases h
    have hp : characters [] s = .ok (p.1, p.2) := hc
    exact characters_shorter hp

/-- So does one that is skipped. -/
theorem skipText_shorter {s r : List Char} (h : skipText s = .ok r) : r.length < s.length := by
  fun_induction skipText s with
  | case1 => cases h
  | case2 =>
    cases h
    exact Nat.lt_succ_self _
  | case3 => cases h
  | case4 t rest he _ ih =>
    have := ih h
    have := skipEscaped_shorter he
    simp only [List.length_cons]
    omega
  | case5 => cases h
  | case6 c t _ _ _ ih =>
    have := ih h
    simp only [List.length_cons]
    omega

end GlobeDrag.Json
