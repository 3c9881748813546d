import GlobeDrag.Json.Number
import GlobeDrag.Json.Quoted

/-!
# Passing over JSON values

`skip` passes over one value of any kind and any depth, looking at its form alone. The brackets that are open are kept in a list,
so that the depth of a value costs no depth of evaluation.
-/

namespace GlobeDrag.Json

/-- An open bracket. -/
inductive Bracket where
  | list
  | object
deriving DecidableEq

namespace Bracket

/-- The character that closes a bracket. -/
def closing : Bracket → Char
  | list => ']'
  | object => '\x7d'

/-- The error of a text that ends inside a bracket. -/
def unfinished : Bracket → Cause
  | list => .unfinished .list
  | object => .unfinished .object

/-- The error of something else than a comma or the closing character after a value inside a bracket. -/
def noSeparator : Bracket → Cause
  | list => .noListSeparator
  | object => .noObjectSeparator

end Bracket

/-- Passes over a key and its colon. -/
def skipKey (s : List Char) : Except Failure (List Char) :=
  match skipSpace s with
  | [] => .error (.reached (.unfinished .object) [])
  | c :: r => if c = '"' then skipText r >>= colon else .error (.seen .keyNotString (c :: r))

/-- Passes over what stands before the next value inside a bracket: a key and its colon in an object, nothing in a list. -/
def skipToValue : Bracket → List Char → Except Failure (List Char)
  | .list, s => .ok s
  | .object, s => skipKey s

/-- What was passed over when the beginning of a value was seen. -/
inductive Begun where
  /-- All of the value, with the text after it. -/
  | whole (rest : List Char)
  /-- An opening bracket, with the text after it. -/
  | opened (bracket : Bracket) (rest : List Char)

/-- The text after what was passed over. -/
def Begun.rest : Begun → List Char
  | whole r => r
  | opened _ r => r

/-- Passes over a value without parts, or over the opening bracket of one with parts. -/
def skipBeginning (s : List Char) : Except Failure Begun :=
  match skipSpace s with
  | [] => .error (.reached (.unfinished .value) [])
  | c :: r =>
    if c = 'n' then (word ['u', 'l', 'l'] r).map .whole
    else if c = 't' then (word ['r', 'u', 'e'] r).map .whole
    else if c = 'f' then (word ['a', 'l', 's', 'e'] r).map .whole
    else if c = '-' ∨ c.isDigit then (Number.skip (c :: r)).map .whole
    else if c = '"' then (skipText r).map .whole
    else if c = '[' then .ok (.opened .list r)
    else if c = '\x7b' then .ok (.opened .object r)
    else .error (.seen .noValue (c :: r))

/-- Where inside the brackets that are open the text goes on: in front of a value, behind one, or behind an opening bracket. -/
inductive Stage where
  | value
  | behind
  | opened
deriving DecidableEq

/-- A key that is skipped takes at least its quotes. -/
theorem skipKey_shorter {s r : List Char} (h : skipKey s = .ok r) : r.length < s.length := by
  have := skipSpace_le s
  unfold skipKey at h
  split at h
  · cases h
  · next c t ht =>
    rw [ht, List.length_cons] at this
    split at h
    · cases hq : skipText t with
      | error e => simp [hq, bind, Except.bind] at h
      | ok u =>
        simp only [hq, bind, Except.bind] at h
        have := skipText_shorter hq
        have := colon_shorter h
        omega
    · cases h

/-- The way to a value may be empty. -/
theorem skipToValue_le {b : Bracket} {s r : List Char} (h : skipToValue b s = .ok r) : r.length ≤ s.length := by
  cases b with
  | list =>
    cases h
    exact Nat.le_refl _
  | object => exact Nat.le_of_lt (skipKey_shorter h)

/-- Passing over something that uses up text, under a constructor, uses up text. -/
theorem map_whole_shorter {x : Except Failure (List Char)} {n : Nat} {b : Begun} (h : x.map .whole = .ok b)
    (hx : ∀ r, x = .ok r → r.length < n) : b.rest.length < n := by
  cases x with
  | error e => cases h
  | ok r =>
    cases h
    exact hx r rfl

/-- The beginning of a value takes at least one character. -/
theorem skipBeginning_shorter {s : List Char} {b : Begun} (h : skipBeginning s = .ok b) : b.rest.length < s.length := by
  have := skipSpace_le s
  unfold skipBeginning at h
  split at h
  · cases h
  · next c t ht =>
    rw [ht, List.length_cons] at this
    refine Nat.lt_of_lt_of_le ?_ this
    repeat' split at h
    · exact map_whole_shorter h fun r hr => Nat.lt_succ_of_le (word_le hr)
    · exact map_whole_shorter h fun r hr => Nat.lt_succ_of_le (word_le hr)
    · exact map_whole_shorter h fun r hr => Nat.lt_succ_of_le (word_le hr)
    · exact map_whole_shorter h fun r hr => Number.skip_shorter hr
    · exact map_whole_shorter h fun r hr => Nat.lt_succ_of_lt (skipText_shorter hr)
    · cases h
      exact Nat.lt_succ_self _
    · cases h
      exact Nat.lt_succ_self _
    · cases h

/-- Passes over the rest of the values that the open brackets belong to, the innermost bracket first. -/
def skipFrom (stage : Stage) (brackets : List Bracket) (s : List Char) : Except Failure (List Char) :=
  match stage, brackets with
  | .value, bs =>
    match _h : skipBeginning s with
    | .error e => .error e
    | .ok (.whole r) => skipFrom .behind bs r
    | .ok (.opened b r) => skipFrom .opened (b :: bs) r
  | _, [] => .ok s
  | stage, b :: bs =>
    match _h : skipSpace s with
    | [] => .error (.reached b.unfinished [])
    | c :: r =>
      if c = b.closing then skipFrom .behind bs r
      else if stage = .opened then
        match _hv : skipToValue b (c :: r) with
        | .error e => .error e
        | .ok t => skipFrom .value (b :: bs) t
      else if c = ',' then
        match _hv : skipToValue b r with
        | .error e => .error e
        | .ok t => skipFrom .value (b :: bs) t
      else .error (.seen b.noSeparator (c :: r))
termination_by (s.length, if stage = .opened then 1 else 0)
decreasing_by
  · have := skipBeginning_shorter _h
    exact Prod.Lex.left _ _ this
  · have := skipBeginning_shorter _h
    exact Prod.Lex.left _ _ this
  · have := skipSpace_le s
    rw [_h] at this
    exact Prod.Lex.left _ _ this
  · next hs =>
    have h1 := skipSpace_le s
    rw [_h] at h1
    have h2 := skipToValue_le _hv
    rcases Nat.lt_or_eq_of_le (Nat.le_trans h2 h1) with hlt | heq
    · exact Prod.Lex.left _ _ hlt
    · rw [heq, hs]
      exact Prod.Lex.right _ (by simp)
  · have h1 := skipSpace_le s
    rw [_h, List.length_cons] at h1
    have h2 := skipToValue_le _hv
    exact Prod.Lex.left _ _ (by omega)

/-- Passes over one value. -/
def skip (s : List Char) : Except Failure (List Char) :=
  skipFrom .value [] s

/-- The rest of a value may be empty. -/
theorem skipFrom_le {stage : Stage} {bs : List Bracket} {s r : List Char} (h : skipFrom stage bs s = .ok r) :
    r.length ≤ s.length := by
  fun_induction skipFrom stage bs s with
  | case1 => cases h
  | case2 s bs t hb ih =>
    have := skipBeginning_shorter hb
    have := ih h
    simp only [Begun.rest] at *
    omega
  | case3 s bs b t hb ih =>
    have := skipBeginning_shorter hb
    have := ih h
    simp only [Begun.rest] at *
    omega
  | case4 =>
    cases h
    exact Nat.le_refl _
  | case5 => cases h
  | case6 =>
    rename_i hs ih
    have h1 := congrArg List.length hs ▸ skipSpace_le _
    have := ih h
    simp only [List.length_cons] at h1
    omega
  | case7 => cases h
  | case8 =>
    rename_i hs _ _ hv _ ih
    have h1 := congrArg List.length hs ▸ skipSpace_le _
    have := skipToValue_le hv
    have := ih h
    omega
  | case9 => cases h
  | case10 =>
    rename_i hv hs _ ih
    have h1 := congrArg List.length hs ▸ skipSpace_le _
    have := skipToValue_le hv
    have := ih h
    simp only [List.length_cons] at h1
    omega
  | case11 => cases h

/-- A value that is skipped takes at least one character. -/
theorem skip_shorter {s r : List Char} (h : skip s = .ok r) : r.length < s.length := by
  unfold skip skipFrom at h
  split at h
  · cases h
  · next t hb =>
    have := skipBeginning_shorter hb
    have := skipFrom_le h
    simp only [Begun.rest] at *
    omega
  · next b t hb =>
    have := skipBeginning_shorter hb
    have := skipFrom_le h
    simp only [Begun.rest] at *
    omega

end GlobeDrag.Json
