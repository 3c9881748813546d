import GlobeDrag.Json.Skip
import GlobeDrag.Proofs.Json.Number

/-!
# JSON values and their texts

A JSON value as it is written, down to the letters of its numbers and strings, but without the blanks between its tokens. A text of a value
holds the tokens of the value in their order, with any blanks before, between and behind them.

Main statements: `Value.induction`, `Value.exists_tokens` (a value shows its kind by its first character), `Spaced.exists_skipSpace` (in
front of a token only blanks are passed over) and `Spaced.ends` (what a number may be followed by).
-/

namespace GlobeDrag.Json

/-! ## Letters of strings and numbers -/

/-- A piece of a string: a character as it is, a short escape or the escape of a number. -/
inductive Piece where
  | plain (c : Char) (isPlain : c ≠ '"' ∧ c ≠ '\\' ∧ 0x20 ≤ c.toNat)
  | short (letter meaning : Char) (h : shortEscape? letter = some meaning)
  | numbered (a b c d : Char) (n : ℕ) (h : hexWord? a b c d = some n)

/-- The letters of a piece. -/
def Piece.chars : Piece → List Char
  | plain c _ => [c]
  | short letter .. => ['\\', letter]
  | numbered a b c d .. => ['\\', 'u', a, b, c, d]

/-- The letters of a string between its quotes. -/
def letters (ps : List Piece) : List Char :=
  ps.flatMap Piece.chars

/-- A string with its quotes. -/
def quoted (ps : List Piece) : List Char :=
  '"' :: (letters ps ++ ['"'])

/-- A number as it is written. -/
structure Numeral where
  number : Number
  /-- The letters of its power of ten. -/
  power : List Char
  isPlain : number.IsPlain
  spells : Number.SpellsExponent number.exponent power

/-- The letters of a number. -/
def Numeral.chars (n : Numeral) : List Char :=
  Number.signChars n.number.negative ++ (n.number.whole ++ (Number.fractionChars n.number.fraction ++ n.power))

/-- A number begins with a minus or a digit. -/
theorem Numeral.exists_chars (n : Numeral) : ∃ c r, n.chars = c :: r ∧ (c = '-' ∨ c.isDigit = true) :=
  Number.exists_signChars_append n.isPlain.whole n.number.negative _

/-! ## Values -/

/-- A JSON value as it is written, without the blanks between its tokens. -/
inductive Value where
  | null
  | flag (b : Bool)
  | number (n : Numeral)
  | string (ps : List Piece)
  | list (vs : List Value)
  | object (ms : List (List Piece × Value))

namespace Value

/-- What holds of a list if it holds of its elements, and of an object if it holds of the values of its members, holds of all values. -/
theorem induction {P : Value → Prop} (null : P .null) (flag : ∀ b, P (.flag b)) (number : ∀ n, P (.number n))
    (string : ∀ ps, P (.string ps)) (list : ∀ vs, (∀ v ∈ vs, P v) → P (.list vs))
    (object : ∀ ms, (∀ m ∈ ms, P m.2) → P (.object ms)) (v : Value) : P v := by
  refine Value.rec (motive_1 := P) (motive_2 := fun vs => ∀ v ∈ vs, P v) (motive_3 := fun ms => ∀ m ∈ ms, P m.2)
    (motive_4 := fun m => P m.2) null flag number string list object ?_ ?_ ?_ ?_ ?_ v
  · simp
  · intro v vs hv hvs
    exact List.forall_mem_cons.2 ⟨hv, hvs⟩
  · simp
  · intro m ms hm hms
    exact List.forall_mem_cons.2 ⟨hm, hms⟩
  · intro ps v hv
    exact hv

end Value

/-! ## Tokens -/

/-- Groups of tokens with commas between them. -/
def separated (groups : List (List (List Char))) : List (List Char) :=
  [[',']].intercalate groups

/-- Groups of tokens, a comma in front of each. -/
def continuing (groups : List (List (List Char))) : List (List Char) :=
  groups.flatMap ([','] :: ·)

mutual

/-- The tokens of a value. -/
def Value.tokens : Value → List (List Char)
  | .null => [['n', 'u', 'l', 'l']]
  | .flag true => [['t', 'r', 'u', 'e']]
  | .flag false => [['f', 'a', 'l', 's', 'e']]
  | .number n => [n.chars]
  | .string ps => [quoted ps]
  | .list vs => ['['] :: (separated (elementTokens vs) ++ [[']']])
  | .object ms => ['\x7b'] :: (separated (memberTokens ms) ++ [['\x7d']])

/-- The tokens of each element of a list. -/
def elementTokens : List Value → List (List (List Char))
  | [] => []
  | v :: vs => v.tokens :: elementTokens vs

/-- The tokens of each member of an object. -/
def memberTokens : List (List Piece × Value) → List (List (List Char))
  | [] => []
  | (k, v) :: ms => (quoted k :: [':'] :: v.tokens) :: memberTokens ms

end

theorem elementTokens_eq (vs : List Value) : elementTokens vs = vs.map Value.tokens := by
  induction vs with
  | nil => rfl
  | cons v vs ih => rw [elementTokens, ih, List.map_cons]

theorem memberTokens_eq (ms : List (List Piece × Value)) :
    memberTokens ms = ms.map fun m => quoted m.1 :: [':'] :: m.2.tokens := by
  induction ms with
  | nil => rfl
  | cons m ms ih => rw [memberTokens, ih, List.map_cons]

theorem separated_cons (g : List (List Char)) (gs : List (List (List Char))) : separated (g :: gs) = g ++ continuing gs := by
  induction gs generalizing g with
  | nil => simp [separated, continuing]
  | cons h gs ih =>
    have rest := ih h
    rw [separated] at rest
    rw [separated, List.intercalate_cons_cons, rest, List.append_assoc]
    rfl

/-- The first characters that a value may have. -/
inductive Value.BeginsWith : Value → Char → Prop
  | null : BeginsWith .null 'n'
  | yes : BeginsWith (.flag true) 't'
  | no : BeginsWith (.flag false) 'f'
  | number {n : Numeral} {c : Char} (begins : c = '-' ∨ c.isDigit = true) : BeginsWith (.number n) c
  | string {ps : List Piece} : BeginsWith (.string ps) '"'
  | list {vs : List Value} : BeginsWith (.list vs) '['
  | object {ms : List (List Piece × Value)} : BeginsWith (.object ms) '\x7b'

namespace Value

variable {v : Value} {c : Char}

/-- No value begins with a blank. -/
theorem BeginsWith.isSpace_eq_false (h : v.BeginsWith c) : isSpace c = false := by
  cases h with
  | number begins => exact Number.isSpace_of_begins begins
  | _ => decide

/-- None begins with a closing bracket. -/
theorem BeginsWith.ne_of_closing (h : v.BeginsWith c) : c ≠ ']' := by
  cases h with
  | number begins => exact Number.ne_of_begins begins (by decide)
  | _ => decide

/-- A value shows its kind by its first character. -/
theorem exists_tokens (v : Value) : ∃ c cs ts, v.tokens = (c :: cs) :: ts ∧ v.BeginsWith c := by
  cases v with
  | null => exact ⟨_, _, _, by rw [tokens], .null⟩
  | flag b =>
    cases b with
    | true => exact ⟨_, _, _, by rw [tokens], .yes⟩
    | false => exact ⟨_, _, _, by rw [tokens], .no⟩
  | number n =>
    obtain ⟨c, r, chars, begins⟩ := n.exists_chars
    exact ⟨c, r, [], by rw [tokens, chars], .number begins⟩
  | string ps => exact ⟨_, _, _, by rw [tokens, quoted], .string⟩
  | list vs => exact ⟨_, _, _, by rw [tokens], .list⟩
  | object ms => exact ⟨_, _, _, by rw [tokens], .object⟩

end Value

/-! ## Texts -/

/-- Characters that may stand between tokens, and no others. -/
def IsBlank (b : List Char) : Prop := ∀ c ∈ b, isSpace c = true

/-- The tokens in their order, with any blanks before, between and behind them. -/
inductive Spaced : List (List Char) → List Char → Prop
  | nil {b : List Char} (blank : IsBlank b) : Spaced [] b
  | cons {b t s : List Char} {ts : List (List Char)} (blank : IsBlank b) (rest : Spaced ts s) : Spaced (t :: ts) (b ++ (t ++ s))

/-- The text is one of the value. -/
def Value.IsText (v : Value) (s : String) : Prop := Spaced v.tokens s.toList

/-- The text of a value with the same blanks in front of every token and at the end. -/
def Value.spread (b : List Char) (v : Value) : String :=
  String.ofList (v.tokens.flatMap (b ++ ·) ++ b)

variable {s : List Char} {ts : List (List Char)}

/-- A value is written with blanks all over. -/
theorem Value.isText_spread {b : List Char} (blank : IsBlank b) (v : Value) : v.IsText (v.spread b) := by
  rw [IsText, spread, String.toList_ofList]
  induction v.tokens with
  | nil => exact .nil blank
  | cons t ts ih =>
    rw [List.flatMap_cons, List.append_assoc, List.append_assoc]
    exact .cons blank ih

theorem skipSpace_append {b : List Char} (blank : IsBlank b) (s : List Char) : skipSpace (b ++ s) = skipSpace s :=
  List.dropWhile_append_of_pos blank

theorem skipSpace_cons {c : Char} (h : isSpace c = false) (s : List Char) : skipSpace (c :: s) = c :: s :=
  List.dropWhile_cons_of_neg (by simp [h])

/-- Behind the last token there are blanks only. -/
theorem Spaced.skipSpace_eq_nil (h : Spaced [] s) : skipSpace s = [] := by
  cases h with
  | nil blank => exact List.dropWhile_eq_nil_iff.2 blank

/-- In front of a token only blanks are passed over. -/
theorem Spaced.exists_skipSpace {c : Char} {cs : List Char} (h : Spaced ((c :: cs) :: ts) s) (hc : isSpace c = false) :
    ∃ r, Spaced ts r ∧ skipSpace s = c :: (cs ++ r) := by
  cases h with
  | cons blank rest => exact ⟨_, rest, by rw [skipSpace_append blank, List.cons_append, skipSpace_cons hc]⟩

/-- Without blanks in front, the text is still one of the tokens. -/
theorem Spaced.of_token {t : List Char} (h : Spaced ts s) : Spaced (t :: ts) (t ++ s) :=
  .cons (b := []) nofun h

/-- In front of a value only blanks are passed over. -/
theorem Spaced.exists_value {v : Value} (h : Spaced (v.tokens ++ ts) s) :
    ∃ c r, v.BeginsWith c ∧ skipSpace s = c :: r ∧ Spaced (v.tokens ++ ts) (c :: r) := by
  obtain ⟨c, cs, us, tokens, begins⟩ := v.exists_tokens
  rw [tokens] at h ⊢
  obtain ⟨r, rest, skip⟩ := h.exists_skipSpace begins.isSpace_eq_false
  exact ⟨c, cs ++ r, begins, skip, rest.of_token⟩

/-- What may follow a value: the end of the text, or a token that ends a list or an object or goes on with it. -/
def Stops (ts : List (List Char)) : Prop := ∀ t ∈ ts.head?, t = [','] ∨ t = [']'] ∨ t = ['\x7d']

/-- What follows a group ends a number. -/
theorem stops_continuing {gs : List (List (List Char))} {close : List Char} (h : close = [']'] ∨ close = ['\x7d']) :
    Stops (continuing gs ++ close :: ts) := by
  cases gs with
  | nil =>
    rintro t ⟨⟩
    exact Or.inr h
  | cons g gs =>
    rintro t ⟨⟩
    exact Or.inl rfl

/-- Blanks end a number. -/
theorem IsBlank.ends {b : List Char} (blank : IsBlank b) : Number.Ends b := by
  intro c hc
  have space := blank c (List.mem_of_mem_head? hc)
  rw [isSpace, decide_eq_true_iff] at space
  rcases space with rfl | rfl | rfl | rfl <;> decide

/-- A number ends in front of what may follow a value. -/
theorem Spaced.ends (h : Spaced ts s) (stops : Stops ts) : Number.Ends s := by
  cases h with
  | nil blank => exact blank.ends
  | @cons b t s ts blank rest =>
    cases b with
    | nil =>
      rcases stops t rfl with rfl | rfl | rfl <;> rintro c ⟨⟩ <;> decide
    | cons d b =>
      rintro c ⟨⟩
      exact blank.ends d rfl

end GlobeDrag.Json
