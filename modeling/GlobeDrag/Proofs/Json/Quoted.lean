import GlobeDrag.Proofs.Json.Reading

/-!
# Strings and their escapes

A string ends at its own closing quote, whatever it holds: quotes behind a backslash, brackets, escapes of any kind. What it is read as
depends on its pieces alone, and where it is only passed over not even halves of surrogate pairs matter.

Main statements: `skipText_letters` (strings are passed over) and `yields_text` (strings are read).
-/

namespace GlobeDrag.Json

variable {before s r : List Char} {ps : List Piece}

/-! ## Passing over -/

/-- The letters of pieces, one piece after another. -/
theorem letters_cons (p : Piece) (ps : List Piece) (s : List Char) : letters (p :: ps) ++ s = p.chars ++ (letters ps ++ s) := by
  rw [letters, List.flatMap_cons, List.append_assoc, ← letters]

/-- Four hexadecimal digits are read in front of anything. -/
theorem hexWord_append {a b c d : Char} {n : ℕ} (h : hexWord? a b c d = some n) (s : List Char) :
    hexWord (a :: b :: c :: d :: s) = .ok (n, s) := by
  unfold hexWord
  simp only [h]

/-- The letters of the short escapes are not that of a numbered one. -/
theorem ne_of_shortEscape? {letter meaning : Char} (h : shortEscape? letter = some meaning) : letter ≠ 'u' := by
  rintro rfl
  cases h

/-- Skipping a string goes on behind an escaped character. -/
theorem skipText_of_skipEscaped (h : skipEscaped s = .ok r) : skipText ('\\' :: s) = skipText r := by
  rw [skipText, if_neg (by decide), if_pos rfl]
  split
  · next he => cases h.symm.trans he
  · next hr =>
    cases h.symm.trans hr
    rfl

/-- A piece of a string is passed over. -/
theorem skipText_piece (p : Piece) (s : List Char) : skipText (p.chars ++ s) = skipText s := by
  cases p with
  | plain c isPlain =>
    obtain ⟨quote, escape, control⟩ := isPlain
    rw [Piece.chars, List.singleton_append, skipText, if_neg quote, if_neg escape, if_neg (by omega)]
  | short letter meaning h =>
    have escaped : skipEscaped (letter :: s) = .ok s := by
      rw [skipEscaped, if_neg (ne_of_shortEscape? h), h]
      rfl
    exact skipText_of_skipEscaped escaped
  | numbered a b c d n h =>
    have escaped : skipEscaped ('u' :: a :: b :: c :: d :: s) = .ok s := by
      rw [skipEscaped, if_pos rfl, hexWord_append h]
      rfl
    exact skipText_of_skipEscaped escaped

/-- A string is passed over up to its closing quote. -/
theorem skipText_letters (ps : List Piece) (s : List Char) : skipText (letters ps ++ '"' :: s) = .ok s := by
  induction ps with
  | nil => rw [letters, List.flatMap_nil, List.nil_append, skipText, if_pos rfl]
  | cons p ps ih => rw [letters_cons, skipText_piece, ih]

/-! ## Meaning -/

/-- The characters that a string stands for. A half of a surrogate pair stands for none unless the other half follows. -/
def unescaped : List Piece → Option (List Char)
  | [] => some []
  | .plain c _ :: ps => (unescaped ps).map (c :: ·)
  | .short _ meaning _ :: ps => (unescaped ps).map (meaning :: ·)
  | .numbered _ _ _ _ n _ :: ps =>
    if 0xdc00 ≤ n ∧ n ≤ 0xdfff then none
    else if 0xd800 ≤ n ∧ n ≤ 0xdbff then
      match ps with
      | .numbered _ _ _ _ m _ :: qs =>
        if 0xdc00 ≤ m ∧ m ≤ 0xdfff then
          (unescaped qs).map (Char.ofNat (0x10000 + (n - 0xd800) * 0x400 + (m - 0xdc00)) :: ·)
        else none
      | _ => none
    else (unescaped ps).map (Char.ofNat n :: ·)

/-- The name that is written as the key of a member, if it is a string of characters. -/
def nameOf (k : List Piece) : Option String :=
  (unescaped k).map String.ofList

/-- So does reading one. -/
theorem characters_of_escaped {d : Char} (h : escaped s = .ok (d, r)) : characters before ('\\' :: s) = characters (d :: before) r := by
  rw [characters, if_neg (by decide), if_pos rfl]
  split
  · next he => cases h.symm.trans he
  · next hr =>
    cases h.symm.trans hr
    rfl

/-- A fault behind a backslash is one of the string. -/
theorem characters_of_escaped_error {e : Failure} (h : escaped s = .error e) : characters before ('\\' :: s) = .error e := by
  rw [characters, if_neg (by decide), if_pos rfl]
  split
  · next he =>
    cases h.symm.trans he
    rfl
  · next hr => cases h.symm.trans hr

/-- The second half of a pair must be the escape of a number. -/
theorem exists_lowSurrogate_error (h : ∀ a b c d n hn qs, ps ≠ .numbered a b c d n hn :: qs) :
    ∃ e, lowSurrogate (letters ps ++ '"' :: s) = .error e := by
  cases ps with
  | nil => exact ⟨_, rfl⟩
  | cons p ps =>
    rw [letters_cons]
    cases p with
    | plain c isPlain =>
      refine ⟨.seen .halfEscape (c :: (letters ps ++ '"' :: s)), ?_⟩
      rw [Piece.chars, List.singleton_append]
      unfold lowSurrogate
      split
      · next hs => cases hs
      · next hs => exact absurd (List.cons.inj hs).1 isPlain.2.1
      · next hs => exact absurd (List.cons.inj hs).1 isPlain.2.1
      · next hs => exact absurd (List.cons.inj hs).1 isPlain.2.1
      · rfl
    | short letter meaning hm =>
      refine ⟨.seen .halfEscape (letter :: (letters ps ++ '"' :: s)), ?_⟩
      rw [Piece.chars]
      unfold lowSurrogate
      split
      · next hs => cases hs
      · next hs => cases hs
      · next hs => exact absurd (List.cons.inj (List.cons.inj hs).2).1 (ne_of_shortEscape? hm)
      · next hs =>
        rw [← (List.cons.inj hs).2]
        rfl
      · next hs => exact absurd rfl (hs _)
    | numbered a b c d n hn => exact absurd rfl (h a b c d n hn ps)

/-- The second half of a character in two halves is read from its number. -/
theorem lowSurrogate_numbered {a b c d : Char} {n : ℕ} (h : hexWord? a b c d = some n) (s : List Char) :
    lowSurrogate ('\\' :: 'u' :: a :: b :: c :: d :: s) =
      if 0xdc00 ≤ n ∧ n ≤ 0xdfff then .ok (n, s) else .error (.reached .loneSurrogate s) := by
  rw [lowSurrogate, hexWord_append h]
  rfl

/-- A character is read from its number, or from those of its halves. -/
theorem escaped_numbered {a b c d : Char} {n : ℕ} (h : hexWord? a b c d = some n) (s : List Char) :
    escaped ('u' :: a :: b :: c :: d :: s) =
      if 0xdc00 ≤ n ∧ n ≤ 0xdfff then .error (.reached .loneSurrogate s)
      else if 0xd800 ≤ n ∧ n ≤ 0xdbff then
        (lowSurrogate s).map fun (m, rest) => (Char.ofNat (0x10000 + (n - 0xd800) * 0x400 + (m - 0xdc00)), rest)
      else .ok (Char.ofNat n, s) := by
  rw [escaped, if_pos rfl, numbered, hexWord_append h]
  rfl

/-- A character that was read stands behind those read before it. -/
theorem map_reverse_cons (c : Char) (before : List Char) (meaning : Option (List Char)) :
    (meaning.map (c :: ·)).map (before.reverse ++ ·) = meaning.map ((c :: before).reverse ++ ·) := by
  cases meaning <;> simp

/-- The characters of a string are read up to its closing quote. -/
theorem yields_characters (ps : List Piece) (before s : List Char) :
    Yields (· = s) (characters before (letters ps ++ '"' :: s)) ((unescaped ps).map (before.reverse ++ ·)) := by
  fun_induction unescaped ps generalizing before with
  | case1 =>
    rw [letters, List.flatMap_nil, List.nil_append, characters, if_pos rfl, Option.map_some, List.append_nil]
    exact .ok rfl
  | case2 c isPlain ps ih =>
    obtain ⟨quote, escape, control⟩ := isPlain
    rw [letters_cons, Piece.chars, List.singleton_append, characters, if_neg quote, if_neg escape, if_neg (by omega), map_reverse_cons]
    exact ih _
  | case3 letter meaning h ps ih =>
    have read : escaped (letter :: (letters ps ++ '"' :: s)) = .ok (meaning, letters ps ++ '"' :: s) := by
      rw [escaped, if_neg (ne_of_shortEscape? h), h]
    rw [letters_cons, map_reverse_cons]
    exact characters_of_escaped read ▸ ih _
  | case4 a b c d n h ps low =>
    have secondHalf : escaped ('u' :: a :: b :: c :: d :: (letters ps ++ '"' :: s)) =
        .error (.reached .loneSurrogate (letters ps ++ '"' :: s)) := by
      rw [escaped_numbered h, if_pos low]
    rw [letters_cons]
    exact characters_of_escaped_error secondHalf ▸ .error
  | case5 a b c d n h low high a' b' c' d' m h' qs low' ih =>
    have second : lowSurrogate (letters (.numbered a' b' c' d' m h' :: qs) ++ '"' :: s) = .ok (m, letters qs ++ '"' :: s) := by
      rw [letters_cons]
      exact (lowSurrogate_numbered h' _).trans (if_pos low')
    have read : escaped ('u' :: a :: b :: c :: d :: (letters (.numbered a' b' c' d' m h' :: qs) ++ '"' :: s)) =
        .ok (Char.ofNat (0x10000 + (n - 0xd800) * 0x400 + (m - 0xdc00)), letters qs ++ '"' :: s) := by
      rw [escaped_numbered h, if_neg low, if_pos high, second]
      rfl
    rw [letters_cons, map_reverse_cons]
    exact characters_of_escaped read ▸ ih _
  | case6 a b c d n h low high a' b' c' d' m h' qs low' =>
    have second : lowSurrogate (letters (.numbered a' b' c' d' m h' :: qs) ++ '"' :: s) =
        .error (.reached .loneSurrogate (letters qs ++ '"' :: s)) := by
      rw [letters_cons]
      exact (lowSurrogate_numbered h' _).trans (if_neg low')
    have read : escaped ('u' :: a :: b :: c :: d :: (letters (.numbered a' b' c' d' m h' :: qs) ++ '"' :: s)) =
        .error (.reached .loneSurrogate (letters qs ++ '"' :: s)) := by
      rw [escaped_numbered h, if_neg low, if_pos high, second]
      rfl
    rw [letters_cons]
    exact characters_of_escaped_error read ▸ .error
  | case7 a b c d n h ps low high other =>
    obtain ⟨e, second⟩ := exists_lowSurrogate_error other (s := s)
    have read : escaped ('u' :: a :: b :: c :: d :: (letters ps ++ '"' :: s)) = .error e := by
      rw [escaped_numbered h, if_neg low, if_pos high, second]
      rfl
    rw [letters_cons]
    exact characters_of_escaped_error read ▸ .error
  | case8 a b c d n h ps low high ih =>
    have read : escaped ('u' :: a :: b :: c :: d :: (letters ps ++ '"' :: s)) = .ok (Char.ofNat n, letters ps ++ '"' :: s) := by
      rw [escaped_numbered h, if_neg low, if_neg high]
    rw [letters_cons, map_reverse_cons]
    exact characters_of_escaped read ▸ ih _

/-- A key is read as its name. -/
theorem yields_text (k : List Piece) (s : List Char) : Yields (· = s) (text (letters k ++ '"' :: s)) (nameOf k) := by
  have characters := yields_characters k [] s
  rw [List.reverse_nil, funext List.nil_append, Option.map_id_fun', id] at characters
  exact characters.map String.ofList

end GlobeDrag.Json
