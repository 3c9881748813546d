import GlobeDrag.Proofs.Decimal.Scientific
import GlobeDrag.Proofs.Json.Number
import GlobeDrag.Proofs.Text.Blank

/-!
# The grammar of number literals

Which texts stand for a number, and for which one, by rules that know nothing of how a text is read:

```text
literal  = sign ( name | digits exponent )
sign     = [ "+" | "-" ]
name     = "inf" | "infinity" | "nan"                        in any letter case
digits   = digit+ | digit* "." digit*                        with a digit before or behind the point
exponent = [ ( "e" | "E" ) sign digit+ ]
```

Digits stand for the double nearest to the number written, and never for negative zero; a minus sign turns the sign afterwards.

Main statements: `doubleOfChars?_eq_some` and `wholeOfChars?_eq_some` (the readers accept exactly the literals and give what they stand
for), and `doubleOfChars?_trim` and `wholeOfChars?_trim` (the same between blanks).
-/

namespace GlobeDrag.Decimal

open Binary64
open Json.Number (IsRun EndsRun)

/-! ## The grammar -/

/-- A sign that may be left out, and whether it is a minus. -/
inductive IsSign : List Char → Bool → Prop where
  | absent : IsSign [] false
  | plus : IsSign ['+'] false
  | minus : IsSign ['-'] true

/-- The digits before and behind the point, one of them at least. The point may be left out if no digit is behind it. -/
inductive IsDigits : List Char → List Char → List Char → Prop where
  | whole {ds : List Char} : IsRun ds → IsDigits ds ds []
  | pointed {whole fraction : List Char} : IsRun (whole ++ fraction) → IsDigits (whole ++ '.' :: fraction) whole fraction

/-- A power of ten that may be left out. -/
inductive IsExponent : List Char → ℤ → Prop where
  | absent : IsExponent [] 0
  | written {letter : Char} {sign ds : List Char} {negative : Bool} : letter = 'e' ∨ letter = 'E' → IsSign sign negative →
      IsRun ds → IsExponent (letter :: (sign ++ ds)) (if negative then -(ofDigits ds : ℤ) else ofDigits ds)

namespace Literal

/-- The texts of a size. -/
inductive IsSize : List Char → Size → Prop where
  | infinite {cs : List Char} :
      cs.map Char.toLower = ['i', 'n', 'f'] ∨ cs.map Char.toLower = ['i', 'n', 'f', 'i', 'n', 'i', 't', 'y'] → IsSize cs .infinite
  | notANumber {cs : List Char} : cs.map Char.toLower = ['n', 'a', 'n'] → IsSize cs .notANumber
  | digits {ds power whole fraction : List Char} {e : ℤ} : IsDigits ds whole fraction → IsExponent power e →
      IsSize (ds ++ power) (.digits whole fraction e)

/-- The texts of a literal. -/
inductive IsText : List Char → Literal → Prop where
  | mk {sign body : List Char} {negative : Bool} {size : Size} : IsSign sign negative → IsSize body size →
      IsText (sign ++ body) ⟨negative, size⟩

/-- The double that a size stands for. -/
inductive Size.StandsFor : Size → Float → Prop where
  | infinite : StandsFor .infinite (1 / 0)
  | notANumber : StandsFor .notANumber (0 / 0)
  | digits {whole fraction : List Char} {e : ℤ} {x : Float} :
      IsNearest x (ofDigits (whole ++ fraction) * 10 ^ (e - fraction.length)) → x ≠ -0 → StandsFor (.digits whole fraction e) x

/-- The double that a literal stands for. -/
inductive StandsFor : Literal → Float → Prop where
  | plus {size : Size} {x : Float} : size.StandsFor x → StandsFor ⟨false, size⟩ x
  | minus {size : Size} {x : Float} : size.StandsFor x → StandsFor ⟨true, size⟩ (-x)

end Literal

/-- The text is a literal that stands for the double. -/
def IsDouble (cs : List Char) (x : Float) : Prop :=
  ∃ l : Literal, Literal.IsText cs l ∧ l.StandsFor x

/-- The text is a whole number of at most 32 bits, with a plus sign or without a sign. -/
def IsWhole (cs : List Char) (n : ℕ) : Prop :=
  ∃ ds, (cs = ds ∨ cs = '+' :: ds) ∧ IsRun ds ∧ n = ofDigits ds ∧ n < wordLimit

variable {cs ds body : List Char} {x : Float}

/-! ## Signs -/

/-- What is split off in front is a sign. -/
theorem isSign_splitSign (cs : List Char) : ∃ sign, IsSign sign (splitSign cs).1 ∧ cs = sign ++ (splitSign cs).2 := by
  unfold splitSign
  split
  · exact ⟨['-'], .minus, rfl⟩
  · exact ⟨['+'], .plus, rfl⟩
  · exact ⟨[], .absent, rfl⟩

/-- A text that does not begin with a sign. -/
def Unsigned (cs : List Char) : Prop := ∀ c ∈ cs.head?, c ≠ '+' ∧ c ≠ '-'

/-- A sign in front of an unsigned text is split off. -/
theorem splitSign_append {sign : List Char} {negative : Bool} (h : IsSign sign negative) (hb : Unsigned body) :
    splitSign (sign ++ body) = (negative, body) := by
  cases h with
  | plus => rfl
  | minus => rfl
  | absent =>
    rw [List.nil_append]
    unfold splitSign
    split
    · exact absurd rfl (hb '-' rfl).2
    · exact absurd rfl (hb '+' rfl).1
    · rfl

theorem ne_of_isDigit {c k : Char} (h : c.isDigit = true) (hk : k.isDigit = false) : c ≠ k := by
  rintro rfl
  rw [h] at hk
  cases hk

theorem unsigned_of_isRun (h : IsRun ds) : Unsigned ds := by
  intro c hc
  have digit := h.isDigit c (List.mem_of_mem_head? hc)
  exact ⟨ne_of_isDigit digit rfl, ne_of_isDigit digit rfl⟩

/-! ## Digits and powers of ten -/

/-- A run of digits is not empty and has digits only. -/
theorem isRun_iff : IsRun ds ↔ ds ≠ [] ∧ ds.all Char.isDigit = true := by
  rw [List.all_eq_true]
  exact ⟨fun h => ⟨h.ne_nil, h.isDigit⟩, fun h => ⟨h.1, h.2⟩⟩

namespace Literal

/-- The exponents that are read are those of the grammar. -/
theorem exponent?_eq_some {e : ℤ} : exponent? cs = some e ↔ IsExponent cs e := by
  constructor
  · intro h
    cases cs with
    | nil =>
      cases h
      exact .absent
    | cons c r =>
      rw [exponent?] at h
      split at h
      · next letter =>
        obtain ⟨sign, hs, hr⟩ := isSign_splitSign r
        simp only [Option.ite_none_right_eq_some, Option.some.injEq] at h
        obtain ⟨run, rfl⟩ := h
        have written := IsExponent.written letter hs (isRun_iff.2 run)
        rwa [← hr] at written
      · cases h
  · intro h
    cases h with
    | absent => rfl
    | written letter hs run =>
      rw [exponent?, if_pos letter, splitSign_append hs (unsigned_of_isRun run)]
      simp only
      rw [if_pos (isRun_iff.1 run)]

/-- A power of ten begins neither with a digit nor with a point. -/
theorem head_of_isExponent {e : ℤ} (h : IsExponent cs e) : EndsRun cs ∧ cs.head? ≠ some '.' := by
  cases h with
  | absent => exact ⟨nofun, nofun⟩
  | written letter => rcases letter with rfl | rfl <;> exact ⟨by rintro c ⟨⟩; rfl, by simp⟩

/-- Digits are read up to the power of ten, whether a point is among them or not. -/
theorem digits?_append {power whole fraction : List Char} (h : IsDigits ds whole fraction) (run : EndsRun power)
    (point : power.head? ≠ some '.') : digits? (ds ++ power) = (exponent? power).map (.digits whole fraction) := by
  cases h with
  | whole digits =>
    rw [digits?, run.takeWhile_append digits.isDigit, run.dropWhile_append digits.isDigit]
    split
    next heq =>
      split at heq
      · exact absurd rfl point
      · cases heq
        rw [if_neg fun none => digits.ne_nil none.1]
  | pointed digits =>
    have before : EndsRun ('.' :: (fraction ++ power)) := by
      rintro c ⟨⟩
      rfl
    have hw : ∀ c ∈ whole, c.isDigit = true := fun c hc => digits.isDigit c (List.mem_append_left _ hc)
    have hf : ∀ c ∈ fraction, c.isDigit = true := fun c hc => digits.isDigit c (List.mem_append_right _ hc)
    rw [List.append_assoc, List.cons_append, digits?, before.takeWhile_append hw, before.dropWhile_append hw]
    simp only
    rw [run.takeWhile_append hf, run.dropWhile_append hf, if_neg fun none => digits.ne_nil (List.append_eq_nil_iff.2 none)]

/-- The reader of digits takes as many digits as there are, which the grammar leaves open: it is enough that no power of ten begins
with a digit or a point. -/
theorem digits?_eq_some {size : Size} : digits? cs = some size ↔ ∃ ds power whole fraction e,
    cs = ds ++ power ∧ IsDigits ds whole fraction ∧ IsExponent power e ∧ size = .digits whole fraction e := by
  have isDigit (s : List Char) : ∀ c ∈ s.takeWhile Char.isDigit, c.isDigit = true := fun c hc => List.mem_takeWhile_imp hc
  have parts : cs.takeWhile Char.isDigit ++ cs.dropWhile Char.isDigit = cs := List.takeWhile_append_dropWhile
  constructor
  · intro h
    unfold digits? at h
    split at h
    next heq =>
    simp only [Option.ite_none_left_eq_some, Option.map_eq_some_iff] at h
    obtain ⟨some, e, power, rfl⟩ := h
    rw [exponent?_eq_some] at power
    split at heq
    · next r drop =>
      cases heq
      refine ⟨cs.takeWhile Char.isDigit ++ '.' :: r.takeWhile Char.isDigit, r.dropWhile Char.isDigit, _, _, e, ?_, .pointed ⟨?_, ?_⟩,
        power, rfl⟩
      · rw [List.append_assoc, List.cons_append, List.takeWhile_append_dropWhile, ← drop, parts]
      · exact fun none => some (List.append_eq_nil_iff.1 none)
      · intro c hc
        rcases List.mem_append.1 hc with hc | hc
        · exact isDigit cs c hc
        · exact isDigit r c hc
    · cases heq
      exact ⟨_, _, _, _, e, parts.symm, .whole ⟨fun none => some ⟨none, rfl⟩, isDigit cs⟩, power, rfl⟩
  · rintro ⟨ds, power, whole, fraction, e, rfl, digits, hp, rfl⟩
    obtain ⟨run, point⟩ := head_of_isExponent hp
    rw [digits?_append digits run point, exponent?_eq_some.2 hp]
    rfl

/-! ## Names -/

/-- So are the names of sizes. -/
theorem named?_eq_some {size : Size} : named? cs = some size ↔
    ((cs.map Char.toLower = ['i', 'n', 'f'] ∨ cs.map Char.toLower = ['i', 'n', 'f', 'i', 'n', 'i', 't', 'y']) ∧ size = .infinite) ∨
      cs.map Char.toLower = ['n', 'a', 'n'] ∧ size = .notANumber := by
  unfold named?
  generalize cs.map Char.toLower = lower
  constructor
  · intro h
    split at h
    · next name =>
      cases h
      exact .inl ⟨.inl (String.ofList_injective name), rfl⟩
    · next name =>
      cases h
      exact .inl ⟨.inr (String.ofList_injective name), rfl⟩
    · next name =>
      cases h
      exact .inr ⟨String.ofList_injective name, rfl⟩
    · cases h
  · rintro (⟨rfl | rfl, rfl⟩ | ⟨rfl, rfl⟩) <;> rfl

/-! ## Literals -/

/-- Digits begin with a digit or the point. -/
theorem head_of_isDigits {whole fraction : List Char} (h : IsDigits ds whole fraction) :
    ∃ c r, ds = c :: r ∧ (c.isDigit = true ∨ c = '.') := by
  cases h with
  | whole run =>
    obtain ⟨c, r, rfl⟩ := List.exists_cons_of_ne_nil run.ne_nil
    exact ⟨c, r, rfl, .inl (run.isDigit c List.mem_cons_self)⟩
  | pointed run =>
    cases whole with
    | nil => exact ⟨_, _, rfl, .inr rfl⟩
    | cons c r => exact ⟨c, _, rfl, .inl (run.isDigit c List.mem_cons_self)⟩

theorem toLower_of_isDigit {c : Char} (h : c.isDigit = true) : c.toLower = c := by
  refine Char.toLower_eq_of_not_isUpper fun upper => ?_
  simp only [Char.isDigit, Char.isUpper, Bool.and_eq_true, decide_eq_true_eq, ge_iff_le, UInt32.le_iff_toNat_le] at h upper
  exact absurd (upper.1.trans h.2) (by decide)

/-- Digits do not begin like a name. -/
theorem named?_digits {power whole fraction : List Char} (h : IsDigits ds whole fraction) : named? (ds ++ power) = none := by
  obtain ⟨c, r, rfl, lead⟩ := head_of_isDigits h
  have same : c.toLower = c := by
    rcases lead with digit | rfl
    · exact toLower_of_isDigit digit
    · rfl
  have letter : c ≠ 'i' ∧ c ≠ 'n' := by
    rcases lead with digit | rfl
    · exact ⟨ne_of_isDigit digit rfl, ne_of_isDigit digit rfl⟩
    · decide
  refine Option.eq_none_iff_forall_ne_some.2 fun size hs => ?_
  rw [named?_eq_some, List.cons_append, List.map_cons, same] at hs
  simp [letter] at hs

/-- The reader tries names first. This does not matter, since no text is both a name and digits. -/
theorem orElse_eq_some {size : Size} : (named? body).or (digits? body) = some size ↔ IsSize body size := by
  rw [Option.or_eq_some_iff, named?_eq_some, digits?_eq_some]
  constructor
  · rintro ((⟨name, rfl⟩ | ⟨name, rfl⟩) | ⟨-, ds, power, whole, fraction, e, rfl, digits, hp, rfl⟩)
    · exact .infinite name
    · exact .notANumber name
    · exact .digits digits hp
  · intro h
    cases h with
    | infinite name => exact .inl (.inl ⟨name, rfl⟩)
    | notANumber name => exact .inl (.inr ⟨name, rfl⟩)
    | digits digits hp => exact .inr ⟨named?_digits digits, _, _, _, _, _, rfl, digits, hp, rfl⟩

theorem unsigned_of_name {k : Char} {t : List Char} (h : cs.map Char.toLower = k :: t) (hk : k ≠ '+' ∧ k ≠ '-') : Unsigned cs := by
  obtain ⟨c, r, rfl, hc, -⟩ := List.map_eq_cons_iff.1 h
  rintro _ ⟨⟩
  constructor
  · rintro rfl
    exact hk.1 hc.symm
  · rintro rfl
    exact hk.2 hc.symm

/-- No size begins with a sign. -/
theorem unsigned_of_isSize {size : Size} (h : IsSize body size) : Unsigned body := by
  cases h with
  | infinite name => rcases name with name | name <;> exact unsigned_of_name name (by decide)
  | notANumber name => exact unsigned_of_name name (by decide)
  | digits digits =>
    obtain ⟨c, r, rfl, lead⟩ := head_of_isDigits digits
    rintro _ ⟨⟩
    rcases lead with digit | rfl
    · exact ⟨ne_of_isDigit digit rfl, ne_of_isDigit digit rfl⟩
    · decide

/-- The reader accepts the texts of the grammar and no others. -/
theorem ofChars?_eq_some {l : Literal} : ofChars? cs = some l ↔ IsText cs l := by
  constructor
  · intro h
    obtain ⟨sign, hs, parts⟩ := isSign_splitSign cs
    rw [ofChars?] at h
    generalize splitSign cs = split at h hs parts
    obtain ⟨size, some, rfl⟩ := Option.map_eq_some_iff.1 h
    rw [parts]
    exact .mk hs (orElse_eq_some.1 some)
  · intro h
    cases h with
    | mk hs hb =>
      rw [ofChars?, splitSign_append hs (unsigned_of_isSize hb)]
      simp only
      rw [orElse_eq_some.2 hb]
      rfl

/-! ## What literals stand for -/

/-- What is computed from a literal is what it stands for. -/
theorem standsFor_value (l : Literal) : l.StandsFor l.value := by
  obtain ⟨negative, size⟩ := l
  have stands : size.StandsFor size.value := by
    cases size with
    | infinite => exact .infinite
    | notANumber => exact .notANumber
    | digits whole fraction e => exact .digits (isNearest_scientific _ _) (scientific_ne_neg_zero _ _)
  cases negative with
  | false => exact .plus stands
  | true => exact .minus stands

/-- A literal stands for one double only: the nearest double is unique but for the sign of a zero, which is settled. -/
theorem value_of_standsFor {l : Literal} (h : l.StandsFor x) : l.value = x := by
  have unique {size : Size} {y : Float} (hy : size.StandsFor y) : size.value = y := by
    cases hy with
    | infinite => rfl
    | notANumber => rfl
    | digits near sign => exact (isNearest_scientific _ _).eq near (scientific_ne_neg_zero _ _) sign
  cases h with
  | plus hy => exact unique hy
  | minus hy => exact congrArg (-·) (unique hy)

end Literal

open Literal

/-- Doubles are read from the literals and from nothing else. -/
theorem doubleOfChars?_eq_some : doubleOfChars? cs = some x ↔ IsDouble cs x := by
  rw [doubleOfChars?, Option.map_eq_some_iff]
  constructor
  · rintro ⟨l, hl, rfl⟩
    exact ⟨l, ofChars?_eq_some.1 hl, standsFor_value l⟩
  · rintro ⟨l, text, stands⟩
    exact ⟨l, ofChars?_eq_some.2 text, value_of_standsFor stands⟩

/-- A run of digits within a word, with or without a plus, is read as its number. -/
theorem wholeOfChars?_of_isRun (h : cs = ds ∨ cs = '+' :: ds) (run : IsRun ds) (bound : ofDigits ds < wordLimit) :
    wholeOfChars? cs = some (ofDigits ds) := by
  obtain ⟨ne, digits⟩ := isRun_iff.1 run
  unfold wholeOfChars?
  simp only
  rcases h with rfl | rfl
  · split
    · exact absurd rfl (unsigned_of_isRun run '+' rfl).1
    · exact if_pos ⟨ne, digits, bound⟩
  · exact if_pos ⟨ne, digits, bound⟩

/-- Whole numbers are read from the literals of 32 bits and from nothing else. -/
theorem wholeOfChars?_eq_some {n : ℕ} : wholeOfChars? cs = some n ↔ IsWhole cs n := by
  constructor
  · intro h
    unfold wholeOfChars? at h
    simp only [Option.ite_none_right_eq_some, Option.some.injEq] at h
    obtain ⟨⟨ne, digits, bound⟩, rfl⟩ := h
    refine ⟨_, ?_, isRun_iff.2 ⟨ne, digits⟩, rfl, bound⟩
    split
    · exact .inr rfl
    · exact .inl rfl
  · rintro ⟨ds, parts, run, rfl, bound⟩
    exact wholeOfChars?_of_isRun parts run bound

/-! ## The characters of literals -/

/-- A character that a literal can contain. -/
def IsLiteralChar (c : Char) : Prop :=
  c.isAlphanum = true ∨ c = '+' ∨ c = '-' ∨ c = '.'

/-- No character of a literal is a comma. -/
theorem IsLiteralChar.ne_comma {c : Char} (h : IsLiteralChar c) : c ≠ ',' := by
  rintro rfl
  rcases h with h | h | h | h <;> cases h

/-- None of them is blank. -/
theorem IsLiteralChar.not_blank {c : Char} (h : IsLiteralChar c) : Text.isBlank c = false := by
  rcases h with letter | rfl | rfl | rfl
  · simp only [Char.isAlphanum, Char.isAlpha, Char.isUpper, Char.isLower, Char.isDigit, Bool.or_eq_true, Bool.and_eq_true,
      decide_eq_true_eq, UInt32.le_iff_toNat_le, ge_iff_le] at letter
    refine Text.not_blank_of_graphic ?_ ?_
    · rcases letter with (upper | lower) | digit
      · exact lt_of_lt_of_le (by decide) upper.1
      · exact lt_of_lt_of_le (by decide) lower.1
      · exact lt_of_lt_of_le (by decide) digit.1
    · rcases letter with (upper | lower) | digit
      · exact lt_of_le_of_lt upper.2 (by decide)
      · exact lt_of_le_of_lt lower.2 (by decide)
      · exact lt_of_le_of_lt digit.2 (by decide)
  · exact Text.not_blank_of_graphic (by decide) (by decide)
  · exact Text.not_blank_of_graphic (by decide) (by decide)
  · exact Text.not_blank_of_graphic (by decide) (by decide)

/-- Letters are among them, capital or not. -/
theorem isLiteralChar_of_toLower {c : Char} (h : c.toLower.isAlpha = true) : IsLiteralChar c := by
  refine .inl ?_
  by_cases upper : c.isUpper = true
  · simp [Char.isAlphanum, Char.isAlpha, upper]
  · rw [Char.toLower_eq_of_not_isUpper upper] at h
    simp [Char.isAlphanum, h]

/-- Digits are among them. -/
theorem isLiteralChar_of_isRun (h : IsRun ds) : ∀ c ∈ ds, IsLiteralChar c := by
  intro c hc
  exact .inl (by simp [Char.isAlphanum, h.isDigit c hc])

theorem isLiteralChar_of_isSign {negative : Bool} (h : IsSign cs negative) : ∀ c ∈ cs, IsLiteralChar c := by
  cases h <;> simp [IsLiteralChar]

theorem isLiteralChar_of_isDigits {whole fraction : List Char} (h : IsDigits cs whole fraction) : ∀ c ∈ cs, IsLiteralChar c := by
  cases h with
  | whole run => exact isLiteralChar_of_isRun run
  | pointed run =>
    obtain ⟨hw, hf⟩ := List.forall_mem_append.1 (isLiteralChar_of_isRun run)
    exact List.forall_mem_append.2 ⟨hw, List.forall_mem_cons.2 ⟨by simp [IsLiteralChar], hf⟩⟩

theorem isLiteralChar_of_isExponent {e : ℤ} (h : IsExponent cs e) : ∀ c ∈ cs, IsLiteralChar c := by
  cases h with
  | absent => simp
  | written letter hs run =>
    refine List.forall_mem_cons.2 ⟨?_, List.forall_mem_append.2 ⟨isLiteralChar_of_isSign hs, isLiteralChar_of_isRun run⟩⟩
    rcases letter with rfl | rfl <;> exact .inl rfl

theorem isLiteralChar_of_name {name : List Char} (h : cs.map Char.toLower = name) (hn : ∀ c ∈ name, c.isAlpha = true) :
    ∀ c ∈ cs, IsLiteralChar c := by
  intro c hc
  refine isLiteralChar_of_toLower (hn _ ?_)
  rw [← h]
  exact List.mem_map_of_mem hc

theorem isLiteralChar_of_isSize {size : Size} (h : IsSize cs size) : ∀ c ∈ cs, IsLiteralChar c := by
  cases h with
  | infinite name => rcases name with name | name <;> exact isLiteralChar_of_name name (by simp)
  | notANumber name => exact isLiteralChar_of_name name (by simp)
  | digits digits power => exact List.forall_mem_append.2 ⟨isLiteralChar_of_isDigits digits, isLiteralChar_of_isExponent power⟩

theorem isLiteralChar_of_isDouble (h : IsDouble cs x) : ∀ c ∈ cs, IsLiteralChar c := by
  obtain ⟨l, text, -⟩ := h
  cases text with
  | mk hs hb => exact List.forall_mem_append.2 ⟨isLiteralChar_of_isSign hs, isLiteralChar_of_isSize hb⟩

theorem isLiteralChar_of_isWhole {n : ℕ} (h : IsWhole cs n) : ∀ c ∈ cs, IsLiteralChar c := by
  obtain ⟨ds, parts, run, -⟩ := h
  rcases parts with rfl | rfl
  · exact isLiteralChar_of_isRun run
  · exact List.forall_mem_cons.2 ⟨by simp [IsLiteralChar], isLiteralChar_of_isRun run⟩

/-! ## Literals between blanks -/

/-- The text is a literal between blanks, and stands for the double. -/
def WritesDouble (cs : List Char) (x : Float) : Prop :=
  ∃ body, Text.Encloses cs body ∧ IsDouble body x

/-- The text is a whole number of at most 32 bits between blanks. -/
def WritesWhole (cs : List Char) (n : ℕ) : Prop :=
  ∃ body, Text.Encloses cs body ∧ IsWhole body n

/-- Blanks around a double are left aside. -/
theorem doubleOfChars?_trim : doubleOfChars? (Text.trim cs) = some x ↔ WritesDouble cs x := by
  rw [doubleOfChars?_eq_some, WritesDouble,
    Text.exists_encloses_iff fun body h c hc => (isLiteralChar_of_isDouble h c hc).not_blank]

/-- So they are around a whole number. -/
theorem wholeOfChars?_trim {n : ℕ} : wholeOfChars? (Text.trim cs) = some n ↔ WritesWhole cs n := by
  rw [wholeOfChars?_eq_some, WritesWhole,
    Text.exists_encloses_iff fun body h c hc => (isLiteralChar_of_isWhole h c hc).not_blank]

/-- No comma stands in a literal or among the blanks around it. -/
theorem WritesDouble.comma_not_mem (h : WritesDouble cs x) : ',' ∉ cs := by
  obtain ⟨body, ⟨before, after, rfl, hb, ha⟩, literal⟩ := h
  have comma : Text.isBlank ',' = false := Text.not_blank_of_graphic (by decide) (by decide)
  simp only [List.mem_append, not_or]
  refine ⟨fun h => ?_, fun h => (isLiteralChar_of_isDouble literal _ h).ne_comma rfl, fun h => ?_⟩
  · exact Bool.false_ne_true (comma.symm.trans (hb _ h))
  · exact Bool.false_ne_true (comma.symm.trans (ha _ h))

end GlobeDrag.Decimal
