import GlobeDrag.Json.Error

/-!
# Reading JSON: the basis

A reader takes the characters that are left and gives a value and the characters left after it. Each reader of a value uses up at
least one character; the lemmas named `…_shorter` say so and let the readers built from it end.
-/

namespace GlobeDrag.Json

/-- A value read from a text, with what is left of the text. -/
abbrev Reader (α : Type) := List Char → Except Failure (α × List Char)

/-- The characters that may stand between tokens. -/
def isSpace (c : Char) : Bool :=
  c = ' ' ∨ c = '\n' ∨ c = '\t' ∨ c = '\r'

/-- A text without the blanks in front. -/
def skipSpace (s : List Char) : List Char :=
  s.dropWhile isSpace

/-- Skipping blanks leaves no more than there was. -/
theorem skipSpace_le (s : List Char) : (skipSpace s).length ≤ s.length :=
  (List.dropWhile_suffix isSpace).length_le

/-- Reads the given letters, the rest of a word whose first letter was seen. -/
def word : List Char → List Char → Except Failure (List Char)
  | [], s => .ok s
  | _ :: _, [] => .error (.reached (.unfinished .value) [])
  | w :: ws, c :: s => if c = w then word ws s else .error (.seen .unknownWord (c :: s))

/-- The rest of a word is taken from what is left. -/
theorem word_le {ws s r : List Char} (h : word ws s = .ok r) : r.length ≤ s.length := by
  induction ws generalizing s with
  | nil =>
    cases h
    exact Nat.le_refl _
  | cons w ws ih =>
    cases s with
    | nil => cases h
    | cons c s =>
      rw [word] at h
      split at h
      · exact Nat.le_succ_of_le (ih h)
      · cases h

/-- The colon between a key and its value. -/
def colon (s : List Char) : Except Failure (List Char) :=
  match skipSpace s with
  | [] => .error (.reached (.unfinished .object) [])
  | c :: r => if c = ':' then .ok r else .error (.seen .noColon (c :: r))

/-- A colon is taken. -/
theorem colon_shorter {s r : List Char} (h : colon s = .ok r) : r.length < s.length := by
  unfold colon at h
  split at h
  · cases h
  · next c t ht =>
    split at h
    · cases h
      have := skipSpace_le s
      rw [ht] at this
      exact this
    · cases h

/-! ## Lists and objects -/

/-- Where a list or an object goes on: it ends, or an element or a member begins. -/
inductive Next where
  /-- Closed, with the text after it. -/
  | closed (rest : List Char)
  /-- One more, with the text where it begins; of a member, the text after the quote in front of its key. -/
  | more (rest : List Char)

/-- What comes next in a list, `first` being whether no element was read yet. -/
def nextElement (first : Bool) (s : List Char) : Except Failure Next :=
  match skipSpace s with
  | [] => .error (.reached (.unfinished .list) [])
  | c :: r =>
    if c = ']' then .ok (.closed r)
    else if first then .ok (.more (c :: r))
    else if c = ',' then
      match skipSpace r with
      | [] => .error (.reached (.unfinished .value) [])
      | d :: t => if d = ']' then .error (.seen .trailingComma (d :: t)) else .ok (.more (d :: t))
    else .error (.seen .noListSeparator (c :: r))

/-- The end of a list of which no more elements are wanted. -/
def endOfList (s : List Char) : Except Failure (List Char) :=
  match skipSpace s with
  | [] => .error (.reached (.unfinished .list) [])
  | c :: r =>
    if c = ']' then .ok r
    else if c = ',' then
      let behind := skipSpace r
      .error (.seen (if behind.head? = some ']' then .trailingComma else .trailingText) behind)
    else .error (.seen .trailingText (c :: r))

/-- The quote in front of a key. -/
def keyQuote : List Char → Except Failure Next
  | [] => .error (.reached (.unfinished .value) [])
  | c :: r =>
    if c = '"' then .ok (.more r)
    else if c = '\x7d' then .error (.seen .trailingComma (c :: r))
    else .error (.seen .keyNotString (c :: r))

/-- What comes next in an object, `first` being whether no member was read yet. -/
def nextMember (first : Bool) (s : List Char) : Except Failure Next :=
  match skipSpace s with
  | [] => .error (.reached (.unfinished .object) [])
  | c :: r =>
    if c = '\x7d' then .ok (.closed r)
    else if first then keyQuote (c :: r)
    else if c = ',' then keyQuote (skipSpace r)
    else .error (.seen .noObjectSeparator (c :: r))

/-- The text that a list or an object goes on with. -/
def Next.rest : Next → List Char
  | closed r => r
  | more r => r

/-- A list that ends takes its bracket. -/
theorem nextElement_closed_shorter {first : Bool} {s r : List Char} (h : nextElement first s = .ok (.closed r)) :
    r.length < s.length := by
  have := skipSpace_le s
  unfold nextElement at h
  split at h
  · cases h
  · next c t ht =>
    rw [ht, List.length_cons] at this
    split at h
    · cases h
      omega
    · split at h
      · cases h
      · split at h
        · split at h
          · cases h
          · split at h <;> cases h
        · cases h

/-- An element may follow right away. -/
theorem nextElement_more_le {first : Bool} {s r : List Char} (h : nextElement first s = .ok (.more r)) :
    r.length ≤ s.length := by
  have := skipSpace_le s
  unfold nextElement at h
  split at h
  · cases h
  · next c t ht =>
    rw [ht, List.length_cons] at this
    split at h
    · cases h
    · split at h
      · cases h
        simp only [List.length_cons]
        omega
      · split at h
        · split at h
          · cases h
          · next d u hu =>
            split at h
            · cases h
            · cases h
              have := skipSpace_le t
              rw [hu] at this
              omega
        · cases h

/-- The end of a list takes its bracket. -/
theorem endOfList_shorter {s r : List Char} (h : endOfList s = .ok r) : r.length < s.length := by
  have := skipSpace_le s
  unfold endOfList at h
  split at h
  · cases h
  · next c t ht =>
    rw [ht, List.length_cons] at this
    split at h
    · cases h
      omega
    · split at h <;> cases h

/-- A member of an object takes at least the quote it begins with. -/
theorem keyQuote_shorter {s : List Char} {n : Next} (h : keyQuote s = .ok n) : n.rest.length < s.length := by
  cases s with
  | nil => cases h
  | cons c r =>
    rw [keyQuote] at h
    split at h
    · cases h
      exact Nat.lt_succ_self _
    · split at h <;> cases h

/-- What comes next in an object takes at least a quote or a bracket. -/
theorem nextMember_shorter {first : Bool} {s : List Char} {n : Next} (h : nextMember first s = .ok n) :
    n.rest.length < s.length := by
  have := skipSpace_le s
  unfold nextMember at h
  split at h
  · cases h
  · next c t ht =>
    rw [ht, List.length_cons] at this
    split at h
    · cases h
      exact this
    · split at h
      · have := keyQuote_shorter h
        simp only [List.length_cons] at this
        omega
      · split at h
        · have := keyQuote_shorter h
          have := skipSpace_le t
          omega
        · cases h

end GlobeDrag.Json
