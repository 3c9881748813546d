import GlobeDrag.Json.Skip

/-!
# Formats of values

A format is a reader together with the fact that it uses up text, which lets lists and records of values be read. Here are those of
numbers, of values that may be `null`, and of lists; `Format.document` reads a whole text.
-/

namespace GlobeDrag.Json

/-- A way of reading values that uses up text. -/
structure Format (α : Type) where
  read : Reader α
  shorter : ∀ {s r : List Char} {v : α}, read s = .ok (v, r) → r.length < s.length

/-! ## Values of the wrong kind -/

/-- The kind of value that begins with the first character, which is no space. A broken word, number or string is a failure of its
own. Of a list or an object nothing is read. -/
def found : Reader Found
  | [] => .error (.reached .noValue [])
  | c :: r =>
    if c = 'n' then (word ['u', 'l', 'l'] r).map (.null, ·)
    else if c = 't' then (word ['r', 'u', 'e'] r).map (.boolean true, ·)
    else if c = 'f' then (word ['a', 'l', 's', 'e'] r).map (.boolean false, ·)
    else if c = '-' ∨ c.isDigit then
      (Number.read (c :: r)).map fun
        | (.integer n, rest) => (.integer n, rest)
        | (.double x, rest) => (.double x, rest)
    else if c = '"' then (text r).map fun (t, rest) => (.string t, rest)
    else if c = '[' then .ok (.list, c :: r)
    else if c = '\x7b' then .ok (.object, c :: r)
    else .error (.seen .noValue (c :: r))

/-- The failure of a value of another kind than the one expected. -/
def wrongType (expected : String) (s : List Char) : Failure :=
  match found s with
  | .error e => e
  | .ok (f, rest) => .reached (.wrongType f expected) rest

namespace Format

/-! ## Numbers -/

/-- Reads a number as a double. -/
def readDouble : Reader Float := fun s =>
  match skipSpace s with
  | [] => .error (.reached (.unfinished .value) [])
  | c :: r =>
    if c = '-' ∨ c.isDigit then (Number.read (c :: r)).map fun (v, rest) => (v.toDouble, rest)
    else .error (wrongType "f64" (c :: r))

/-- Numbers. -/
def double : Format Float where
  read := readDouble
  shorter {s r v} h := by
    have := skipSpace_le s
    unfold readDouble at h
    split at h
    · cases h
    · next c t ht =>
      rw [ht] at this
      split at h
      · cases hn : Number.read (c :: t) with
        | error e =>
          rw [hn] at h
          cases h
        | ok p =>
          have hp : Number.read (c :: t) = .ok (p.1, p.2) := hn
          rw [hn] at h
          cases h
          exact Nat.lt_of_lt_of_le (Number.read_shorter hp) this
      · cases h

/-! ## Values that may be absent -/

/-- Reads `null` or a value. -/
def readOptional {α : Type} (f : Format α) : Reader (Option α) := fun s =>
  match skipSpace s with
  | 'n' :: r => (word ['u', 'l', 'l'] r).map (none, ·)
  | _ => (f.read s).map fun (v, rest) => (some v, rest)

/-- Values that may be `null`. -/
def optional {α : Type} (f : Format α) : Format (Option α) where
  read := readOptional f
  shorter {s r v} h := by
    have := skipSpace_le s
    unfold readOptional at h
    split at h
    · next t ht =>
      rw [ht, List.length_cons] at this
      cases hw : word ['u', 'l', 'l'] t with
      | error e =>
        rw [hw] at h
        cases h
      | ok u =>
        rw [hw] at h
        cases h
        have := word_le hw
        omega
    · cases hf : f.read s with
      | error e =>
        rw [hf] at h
        cases h
      | ok p =>
        have hp : f.read s = .ok (p.1, p.2) := hf
        rw [hf] at h
        cases h
        exact f.shorter hp

/-! ## Lists -/

/-- Reads the elements of a list up to its closing bracket; `before` holds those already read, the last one first. -/
def elements {α : Type} (f : Format α) (before : List α) (s : List Char) : Except Failure (List α × List Char) :=
  match _h : nextElement before.isEmpty s with
  | .error e => .error e
  | .ok (.closed r) => .ok (before.reverse, r)
  | .ok (.more r) =>
    match _hv : f.read r with
    | .error e => .error e
    | .ok (v, rest) => elements f (v :: before) rest
termination_by s.length
decreasing_by
  have := nextElement_more_le _h
  have := f.shorter _hv
  omega

/-- The elements of a list take at least the bracket that closes it. -/
theorem elements_shorter {α : Type} {f : Format α} {before vs : List α} {s r : List Char}
    (h : elements f before s = .ok (vs, r)) : r.length < s.length := by
  fun_induction elements f before s with
  | case1 => cases h
  | case2 before s t hn =>
    cases h
    exact nextElement_closed_shorter hn
  | case3 => cases h
  | case4 before s t hn v rest hv ih =>
    have := nextElement_more_le hn
    have := f.shorter hv
    have := ih h
    omega

/-- Reads a list. -/
def readList {α : Type} (f : Format α) : Reader (List α) := fun s =>
  match skipSpace s with
  | [] => .error (.reached (.unfinished .value) [])
  | c :: r => if c = '[' then elements f [] r else .error (wrongType "a sequence" (c :: r))

/-- Lists of values. -/
def list {α : Type} (f : Format α) : Format (List α) where
  read := readList f
  shorter {s r v} h := by
    have := skipSpace_le s
    unfold readList at h
    split at h
    · cases h
    · next c t ht =>
      rw [ht, List.length_cons] at this
      split at h
      · have := elements_shorter h
        omega
      · cases h

/-- The same values under a function. -/
def map {α β : Type} (g : α → β) (f : Format α) : Format β where
  read s := (f.read s).map fun (v, r) => (g v, r)
  shorter {s r v} h := by
    simp only at h
    cases hf : f.read s with
    | error e =>
      rw [hf] at h
      cases h
    | ok p =>
      have hp : f.read s = .ok (p.1, p.2) := hf
      rw [hf] at h
      cases h
      exact f.shorter hp

/-! ## Documents -/

/-- Reads one value and nothing else. -/
def readAlone {α : Type} (f : Format α) (s : List Char) : Except Failure α := do
  let (v, rest) ← f.read s
  let behind := skipSpace rest
  if behind = [] then return v else throw (.seen .trailingText behind)

/-- Reads a text that is one value and nothing else. -/
def document {α : Type} (f : Format α) (text : String) : Except Error α :=
  (f.readAlone text.toList).mapError (Failure.error text)

end Format

end GlobeDrag.Json
