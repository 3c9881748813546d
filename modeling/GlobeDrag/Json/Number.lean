import GlobeDrag.Decimal.Literal
import GlobeDrag.Json.Reading

/-!
# Reading JSON numbers

`Number.scan` takes a written number apart, `Number.value` gives its value. Digits are gathered into a word of 64 bits and scaled by
one power of ten, so that a value with more than a few digits need not be the double nearest to the number written: the
gathered word, the power of ten and the scaling each round on their own.
-/

namespace GlobeDrag.Json

open Decimal (ofDigits)

/-- A number as written: sign, digits before and after the point, and the power of ten with its sign. -/
structure Number where
  negative : Bool
  whole : List Char
  fraction : Option (List Char)
  exponent : Option (Bool × List Char)
deriving DecidableEq

namespace Number

/-! ## Written numbers -/

/-- A run of at least one digit. Without a digit the error is `atEnd` at the end of the text and `badNumber` elsewhere. -/
def digitRun (atEnd : Cause) : Reader (List Char)
  | [] => .error (.reached atEnd [])
  | c :: r =>
    if c.isDigit then .ok ((c :: r).takeWhile Char.isDigit, (c :: r).dropWhile Char.isDigit)
    else .error (.seen .badNumber (c :: r))

/-- A run of digits takes at least one. -/
theorem digitRun_shorter {atEnd : Cause} {s r ds : List Char} (h : digitRun atEnd s = .ok (ds, r)) :
    r.length < s.length := by
  cases s with
  | nil => cases h
  | cons c t =>
    rw [digitRun] at h
    split at h
    · next hc =>
      cases h
      rw [List.dropWhile_cons_of_pos hc]
      exact Nat.lt_succ_of_le (List.dropWhile_suffix _).length_le
    · cases h

/-- The digits before the point: one zero alone, or digits that do not begin with a zero. -/
def wholeDigits (atEnd : Cause) (s : List Char) : Except Failure (List Char × List Char) := do
  let (ds, rest) ← digitRun atEnd s
  if ds.head? = some '0' ∧ ds.length ≠ 1 then throw (.seen .badNumber (s.drop 1)) else return (ds, rest)

/-- The digits after the point, if there is a point. -/
def fractionDigits (atEnd : Cause) : List Char → Except Failure (Option (List Char) × List Char)
  | '.' :: r => do
    let (ds, rest) ← digitRun atEnd r
    return (some ds, rest)
  | s => .ok (none, s)

/-- The sign of a power of ten, if it is written. -/
def exponentSign : List Char → Bool × List Char
  | '-' :: r => (true, r)
  | '+' :: r => (false, r)
  | r => (false, r)

/-- The power of ten, if there is one. -/
def exponentDigits (atEnd : Cause) : List Char → Except Failure (Option (Bool × List Char) × List Char)
  | [] => .ok (none, [])
  | c :: r =>
    if c = 'e' ∨ c = 'E' then do
      let (negative, ds) := exponentSign r
      let (ds, rest) ← digitRun atEnd ds
      return (some (negative, ds), rest)
    else .ok (none, c :: r)

/-- Takes the number at the beginning of a text apart. -/
def scan (atEnd : Cause) (s : List Char) : Except Failure (Number × List Char) := do
  let (negative, s) := if s.head? = some '-' then (true, s.drop 1) else (false, s)
  let (whole, s) ← wholeDigits atEnd s
  let (fraction, s) ← fractionDigits atEnd s
  let (exponent, s) ← exponentDigits atEnd s
  return (⟨negative, whole, fraction, exponent⟩, s)

/-! ## Values -/

/-- The words that digits are gathered into. -/
def gatherLimit : Nat := 0x10000000000000000

/-- The largest power of ten that is not cut off. -/
def exponentLimit : Nat := 0x7fffffff

/-- Gathers digits into a number as long as it stays below `gatherLimit`, and returns the digits left over. -/
def gather (n : Nat) : List Char → Nat × List Char
  | [] => (n, [])
  | c :: r =>
    let next := 10 * n + (c.toNat - '0'.toNat)
    if next < gatherLimit then gather next r else (n, c :: r)

/-- The value of a gathered number, rounded. -/
def gathered (n : Nat) : Float :=
  (UInt64.ofNat n).toFloat

/-- The largest power of ten that a double is multiplied or divided by at once. -/
def scaleLimit : Nat := 308

/-- A double times a power of ten. Large negative powers are applied in portions while the double is not zero. -/
def scale (f : Float) (e : Int) : Except Cause Float :=
  if e.natAbs ≤ scaleLimit then
    let power := Decimal.Literal.scientific 1 e.natAbs
    if 0 ≤ e then
      let g := f * power
      if g.isInf then .error .numberTooLarge else .ok g
    else .ok (f / power)
  else if f == 0 then .ok f
  else if 0 ≤ e then .error .numberTooLarge
  else scale (f / Decimal.Literal.scientific 1 scaleLimit) (e + scaleLimit)
termination_by e.natAbs
decreasing_by
  simp only [scaleLimit] at *
  omega

/-- The kinds of values that numbers have. -/
inductive Value where
  /-- A whole number, written without point and power of ten. -/
  | integer (n : Int)
  | double (x : Float)

/-- The double with the given sign. -/
def signed (negative : Bool) (x : Float) : Float :=
  if negative then -x else x

/-- The value of a whole number, as long as it fits into a word; negative zero and numbers below the smallest word are doubles. -/
def wholeValue (negative : Bool) (n : Nat) : Value :=
  if !negative then .integer n
  else if n = 0 ∨ 0x8000000000000000 < n then .double (-gathered n)
  else .integer (-n)

/-- The value of a written number. A power of ten beyond `exponentLimit` makes a number too large or zero. -/
def value (x : Number) : Except Cause Value := do
  let (n, left) := gather 0 x.whole
  let (m, leftover) := gather n (x.fraction.getD [])
  let shift : Int := left.length - ((x.fraction.getD []).length - leftover.length : Nat)
  match x.exponent with
  | none =>
    if x.fraction = none ∧ left = [] then return wholeValue x.negative n
    else return .double (signed x.negative (← scale (gathered m) shift))
  | some (negative, ds) =>
    if exponentLimit < ofDigits ds then
      if m ≠ 0 ∧ !negative then throw .numberTooLarge
      else return .double (signed x.negative 0)
    else
      let e : Int := if negative then -(ofDigits ds : Int) else ofDigits ds
      return .double (signed x.negative (← scale (gathered m) (shift + e)))

/-- The digits of a power of ten behind the one with which it exceeds `exponentLimit`; `n` comes from the digits before. -/
def excess (n : Nat) : List Char → List Char
  | [] => []
  | c :: r =>
    let next := 10 * n + (c.toNat - '0'.toNat)
    if exponentLimit < next then r else excess next r

/-- The digits of a number that is too large that were not looked at. -/
def unread (x : Number) : List Char :=
  match x.exponent with
  | none => []
  | some (_, ds) => excess 0 ds

/-- The double that a value is read as: whole numbers are rounded. -/
def Value.toDouble : Value → Float
  | .integer n => signed (n < 0) (gathered n.natAbs)
  | .double x => x

/-! ## Readers -/

/-- So do the digits before the point. -/
theorem wholeDigits_shorter {atEnd : Cause} {s r ds : List Char} (h : wholeDigits atEnd s = .ok (ds, r)) :
    r.length < s.length := by
  unfold wholeDigits at h
  cases hd : digitRun atEnd s with
  | error e => simp [hd, bind, Except.bind] at h
  | ok p =>
    have hp : digitRun atEnd s = .ok (p.1, p.2) := hd
    simp only [hd, bind, Except.bind] at h
    split at h
    · cases h
    · cases h
      exact digitRun_shorter hp

/-- A fraction may be left out. -/
theorem fractionDigits_le {atEnd : Cause} {s r : List Char} {f : Option (List Char)}
    (h : fractionDigits atEnd s = .ok (f, r)) : r.length ≤ s.length := by
  unfold fractionDigits at h
  split at h
  · next t =>
    cases hd : digitRun atEnd t with
    | error e => simp [hd, bind, Except.bind] at h
    | ok p =>
      have hp : digitRun atEnd t = .ok (p.1, p.2) := hd
      simp only [hd, bind, Except.bind] at h
      cases h
      have := digitRun_shorter hp
      simp only [List.length_cons]
      omega
  · cases h
    exact Nat.le_refl _

/-- So may the sign of an exponent. -/
theorem exponentSign_le (s : List Char) : (exponentSign s).2.length ≤ s.length := by
  unfold exponentSign
  split <;> simp

/-- So may an exponent. -/
theorem exponentDigits_le {atEnd : Cause} {s r : List Char} {e : Option (Bool × List Char)}
    (h : exponentDigits atEnd s = .ok (e, r)) : r.length ≤ s.length := by
  cases s with
  | nil =>
    cases h
    exact Nat.le_refl _
  | cons c t =>
    rw [exponentDigits] at h
    split at h
    · cases hd : digitRun atEnd (exponentSign t).2 with
      | error e => simp [hd, bind, Except.bind] at h
      | ok p =>
        have hp : digitRun atEnd (exponentSign t).2 = .ok (p.1, p.2) := hd
        simp only [hd, bind, Except.bind] at h
        cases h
        have := digitRun_shorter hp
        have := exponentSign_le t
        simp only [List.length_cons]
        omega
    · cases h
      exact Nat.le_refl _

/-- A number takes at least a digit. -/
theorem scan_shorter {atEnd : Cause} {s r : List Char} {x : Number} (h : scan atEnd s = .ok (x, r)) :
    r.length < s.length := by
  unfold scan at h
  have hsign : (if s.head? = some '-' then (true, s.drop 1) else (false, s)).2.length ≤ s.length := by
    split <;> simp
  revert h hsign
  generalize (if s.head? = some '-' then (true, s.drop 1) else (false, s)) = sg
  intro h hsign
  cases hw : wholeDigits atEnd sg.2 with
  | error e => simp [hw, bind, Except.bind] at h
  | ok p =>
    have hp : wholeDigits atEnd sg.2 = .ok (p.1, p.2) := hw
    have := wholeDigits_shorter hp
    cases hf : fractionDigits atEnd p.2 with
    | error e => simp [hw, hf, bind, Except.bind] at h
    | ok q =>
      have hq : fractionDigits atEnd p.2 = .ok (q.1, q.2) := hf
      have := fractionDigits_le hq
      cases he : exponentDigits atEnd q.2 with
      | error e => simp [hw, hf, he, bind, Except.bind] at h
      | ok t =>
        have ht : exponentDigits atEnd q.2 = .ok (t.1, t.2) := he
        have := exponentDigits_le ht
        simp only [hw, hf, he, bind, Except.bind] at h
        cases h
        omega

/-- Reads a number and its value. -/
def read : Reader Value := fun s => do
  let (x, rest) ← scan (.unfinished .value) s
  let v ← x.value.mapError (.reached · (x.unread ++ rest))
  return (v, rest)

/-- Passes over a number of any size. -/
def skip (s : List Char) : Except Failure (List Char) :=
  (scan .badNumber s).map (·.2)

/-- Reading a number takes at least a digit. -/
theorem read_shorter {s r : List Char} {v : Value} (h : read s = .ok (v, r)) : r.length < s.length := by
  unfold read at h
  cases hs : scan (.unfinished .value) s with
  | error e => simp [hs, bind, Except.bind] at h
  | ok p =>
    have hp : scan (.unfinished .value) s = .ok (p.1, p.2) := hs
    have := scan_shorter hp
    simp only [hs, bind, Except.bind] at h
    split at h
    · cases h
    · cases h
      exact this

/-- Skipping a number takes at least a digit. -/
theorem skip_shorter {s r : List Char} (h : skip s = .ok r) : r.length < s.length := by
  unfold skip at h
  cases hs : scan .badNumber s with
  | error e =>
    rw [hs] at h
    cases h
  | ok p =>
    have hp : scan .badNumber s = .ok (p.1, p.2) := hs
    rw [hs] at h
    cases h
    exact scan_shorter hp

end Number

end GlobeDrag.Json
