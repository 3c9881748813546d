import GlobeDrag.Proofs.Json.Quoted

/-!
# One value is passed over

Passing over a value leaves exactly what stands behind it: a list or an object ends at its own closing bracket whatever stands between. The
value is looked at for its form alone, so numbers of any size are passed over too.

Main statements: `passes` (values inside brackets that are open) and `exists_skip` (a value).
-/

namespace GlobeDrag.Json

variable {s r : List Char} {ts : List (List Char)}

/-! ## Numbers -/

/-- A number is skipped up to what ends it. -/
theorem Number.skip_chars (n : Numeral) (hs : Ends s) : skip (n.chars ++ s) = .ok s := by
  rw [skip, Numeral.chars, scan_append n.isPlain n.spells hs]
  rfl

/-! ## Steps -/

section steps

variable {b : Bracket} {bs : List Bracket} {c : Char}

/-- Behind a value that is whole, skipping goes on there. -/
theorem skipFrom_of_whole (h : skipBeginning s = .ok (.whole r)) : skipFrom .value bs s = skipFrom .behind bs r := by
  rw [skipFrom]
  split
  · next he => cases h.symm.trans he
  · next hr =>
    cases h.symm.trans hr
    rfl
  · next hr => cases h.symm.trans hr

/-- A bracket is opened. -/
theorem skipFrom_of_opened (h : skipBeginning s = .ok (.opened b r)) : skipFrom .value bs s = skipFrom .opened (b :: bs) r := by
  rw [skipFrom]
  split
  · next he => cases h.symm.trans he
  · next hr => cases h.symm.trans hr
  · next hr =>
    cases h.symm.trans hr
    rfl

/-- The last bracket that was opened is closed. -/
theorem skipFrom_of_closing {stage : Stage} (hstage : stage ≠ .value) (h : skipSpace s = b.closing :: r) :
    skipFrom stage (b :: bs) s = skipFrom .behind bs r := by
  rw [skipFrom.eq_3 _ _ _ _ hstage]
  split
  · next he => cases h.symm.trans he
  · next hr =>
    cases h.symm.trans hr
    rw [if_pos rfl]

/-- The first part follows its bracket. -/
theorem skipFrom_of_first {t : List Char} (h : skipSpace s = c :: r) (hc : c ≠ b.closing) (ht : skipToValue b (c :: r) = .ok t) :
    skipFrom .opened (b :: bs) s = skipFrom .value (b :: bs) t := by
  rw [skipFrom.eq_3 .opened _ _ _ (by decide)]
  split
  · next he => cases h.symm.trans he
  · next hr =>
    cases h.symm.trans hr
    rw [if_neg hc, if_pos rfl]
    split
    · next he => cases ht.symm.trans he
    · next hr =>
      cases ht.symm.trans hr
      rfl

/-- Each other part follows a comma. -/
theorem skipFrom_of_next {t : List Char} (h : skipSpace s = ',' :: r) (ht : skipToValue b r = .ok t) :
    skipFrom .behind (b :: bs) s = skipFrom .value (b :: bs) t := by
  have comma : ',' ≠ b.closing := by cases b <;> decide
  rw [skipFrom.eq_3 .behind _ _ _ (by decide)]
  split
  · next he => cases h.symm.trans he
  · next hr =>
    cases h.symm.trans hr
    rw [if_neg comma, if_neg (by decide), if_pos rfl]
    split
    · next he => cases ht.symm.trans he
    · next hr =>
      cases ht.symm.trans hr
      rfl

end steps

/-! ## Values inside brackets -/

/-- Inside of any open brackets, the value is passed over and nothing else. -/
def Passes (v : Value) : Prop :=
  ∀ (bs : List Bracket) {ts : List (List Char)} {s : List Char}, Stops ts → Spaced (v.tokens ++ ts) s →
    ∃ r, Spaced ts r ∧ skipFrom .value bs s = skipFrom .behind bs r

/-- A value of one token. -/
theorem passes_of_token {v : Value} {c : Char} {cs : List Char} (tokens : v.tokens = [c :: cs]) (hc : isSpace c = false)
    (whole : ∀ {r s : List Char}, Number.Ends r → skipSpace s = c :: (cs ++ r) → skipBeginning s = .ok (.whole r)) : Passes v := by
  intro bs ts s stops h
  rw [tokens] at h
  obtain ⟨r, rest, skip⟩ := h.exists_skipSpace hc
  exact ⟨r, rest, skipFrom_of_whole (whole (rest.ends stops) skip)⟩

/-- A null is passed. -/
theorem passes_null : Passes .null := by
  refine passes_of_token (by rw [Value.tokens]) (by decide) fun _ skip => ?_
  rw [skipBeginning, skip]
  rfl

theorem passes_flag (b : Bool) : Passes (.flag b) := by
  cases b with
  | true =>
    refine passes_of_token (by rw [Value.tokens]) (by decide) fun _ skip => ?_
    rw [skipBeginning, skip]
    rfl
  | false =>
    refine passes_of_token (by rw [Value.tokens]) (by decide) fun _ skip => ?_
    rw [skipBeginning, skip]
    rfl

theorem passes_number (n : Numeral) : Passes (.number n) := by
  obtain ⟨c, cs, chars, begins⟩ := n.exists_chars
  refine passes_of_token (by rw [Value.tokens, chars]) (Number.isSpace_of_begins begins) fun {r s} ends skip => ?_
  have number : Number.skip (c :: (cs ++ r)) = .ok r := by
    rw [← List.cons_append, ← chars]
    exact Number.skip_chars n ends
  unfold skipBeginning
  rw [skip]
  simp only
  rw [if_neg (Number.ne_of_begins begins (by decide)), if_neg (Number.ne_of_begins begins (by decide)),
    if_neg (Number.ne_of_begins begins (by decide)), if_pos begins, number]
  rfl

theorem passes_string (ps : List Piece) : Passes (.string ps) := by
  refine passes_of_token (by rw [Value.tokens, quoted]) (by decide) fun {r s} _ skip => ?_
  rw [List.append_assoc] at skip
  rw [skipBeginning, skip]
  exact congrArg (Except.map _) (skipText_letters ps r)

/-! ## Lists and objects -/

/-- What stands for a value between brackets: the value in a list, and a key, a colon and the value in an object. -/
inductive Bracket.Part : Bracket → List (List Char) → Value → Prop
  | element {v : Value} : Part .list v.tokens v
  | member {k : List Piece} {v : Value} : Part .object (quoted k :: [':'] :: v.tokens) v

variable {b : Bracket} {bs : List Bracket} {g : List (List Char)} {gs : List (List (List Char))} {v : Value}

/-- The way to the value of a part is skipped. -/
theorem Bracket.Part.exists_skipToValue (part : b.Part g v) (h : Spaced (g ++ ts) s) :
    ∃ r, Spaced (v.tokens ++ ts) r ∧ skipToValue b s = .ok r := by
  cases part with
  | element => exact ⟨s, h, rfl⟩
  | @member k =>
    have h : Spaced (quoted k :: [':'] :: (v.tokens ++ ts)) s := h
    obtain ⟨t, rest, skip⟩ := h.exists_skipSpace (by decide)
    obtain ⟨r, rest, hcolon⟩ := exists_colon rest
    refine ⟨r, rest, ?_⟩
    rw [skipToValue, skipKey, skip, List.append_assoc]
    simp only
    rw [if_pos trivial, List.singleton_append, skipText_letters]
    exact hcolon

/-- What stands for a value does not look like a closing bracket. -/
theorem Bracket.Part.exists_first (part : b.Part g v) (h : Spaced (g ++ ts) s) :
    ∃ c r, skipSpace s = c :: r ∧ c ≠ b.closing ∧ Spaced (g ++ ts) (c :: r) := by
  cases part with
  | element =>
    obtain ⟨c, r, begins, skip, rest⟩ := h.exists_value
    exact ⟨c, r, skip, begins.ne_of_closing, rest⟩
  | @member k =>
    have h : Spaced (quoted k :: [':'] :: (v.tokens ++ ts)) s := h
    obtain ⟨r, rest, skip⟩ := h.exists_skipSpace (by decide)
    exact ⟨_, _, skip, by decide, rest.of_token⟩

/-- What follows a part ends a number. -/
theorem Bracket.stops_continuing (b : Bracket) (gs : List (List (List Char))) (ts : List (List Char)) :
    Stops (continuing gs ++ [b.closing] :: ts) := by
  cases b with
  | list => exact Json.stops_continuing (Or.inl rfl)
  | object => exact Json.stops_continuing (Or.inr rfl)

/-- What is left of a list or an object behind a value is passed over. -/
theorem skipFrom_continuing (h : ∀ g ∈ gs, ∃ v, b.Part g v ∧ Passes v) (hs : Spaced (continuing gs ++ [b.closing] :: ts) s) :
    ∃ r, Spaced ts r ∧ skipFrom .behind (b :: bs) s = skipFrom .behind bs r := by
  induction gs generalizing s with
  | nil =>
    obtain ⟨r, rest, skip⟩ := Spaced.exists_skipSpace hs (by cases b <;> decide)
    exact ⟨r, rest, skipFrom_of_closing (by decide) skip⟩
  | cons g gs ih =>
    obtain ⟨v, part, passes⟩ := h g List.mem_cons_self
    have hs : Spaced ([','] :: (g ++ (continuing gs ++ [b.closing] :: ts))) s := by
      rw [← List.append_assoc]
      exact hs
    obtain ⟨t, rest, skip⟩ := hs.exists_skipSpace (by decide)
    obtain ⟨u, rest, toValue⟩ := part.exists_skipToValue rest
    obtain ⟨w, rest, value⟩ := passes (b :: bs) (b.stops_continuing gs ts) rest
    obtain ⟨r, rest, behind⟩ := ih (fun g hg => h g (List.mem_cons_of_mem _ hg)) rest
    exact ⟨r, rest, by rw [skipFrom_of_next skip toValue, value, behind]⟩

/-- What is left of a list or an object behind its opening bracket is passed over. -/
theorem skipFrom_separated (h : ∀ g ∈ gs, ∃ v, b.Part g v ∧ Passes v) (hs : Spaced (separated gs ++ [b.closing] :: ts) s) :
    ∃ r, Spaced ts r ∧ skipFrom .opened (b :: bs) s = skipFrom .behind bs r := by
  cases gs with
  | nil =>
    obtain ⟨r, rest, skip⟩ := Spaced.exists_skipSpace hs (by cases b <;> decide)
    exact ⟨r, rest, skipFrom_of_closing (by decide) skip⟩
  | cons g gs =>
    obtain ⟨v, part, passes⟩ := h g List.mem_cons_self
    rw [separated_cons, List.append_assoc] at hs
    obtain ⟨c, t, skip, notClosing, rest⟩ := part.exists_first hs
    obtain ⟨u, rest, toValue⟩ := part.exists_skipToValue rest
    obtain ⟨w, rest, value⟩ := passes (b :: bs) (b.stops_continuing gs ts) rest
    obtain ⟨r, rest, behind⟩ := skipFrom_continuing (fun g hg => h g (List.mem_cons_of_mem _ hg)) rest
    exact ⟨r, rest, by rw [skipFrom_of_first skip notClosing toValue, value, behind]⟩

/-! ## All values -/

/-- Every value is passed over, to any depth. -/
theorem passes (v : Value) : Passes v := by
  induction v using Value.induction with
  | null => exact passes_null
  | flag b => exact passes_flag b
  | number n => exact passes_number n
  | string ps => exact passes_string ps
  | list vs ih =>
    intro bs ts s _ h
    rw [Value.tokens, elementTokens_eq, List.cons_append, List.append_assoc] at h
    obtain ⟨t, rest, skip⟩ := h.exists_skipSpace (by decide)
    have opened : skipBeginning s = .ok (.opened .list t) := by
      rw [skipBeginning, skip]
      rfl
    have parts : ∀ g ∈ vs.map Value.tokens, ∃ v, Bracket.list.Part g v ∧ Passes v := by
      intro g hg
      obtain ⟨v, hv, rfl⟩ := List.mem_map.1 hg
      exact ⟨v, .element, ih v hv⟩
    obtain ⟨r, rest, inside⟩ := skipFrom_separated (b := .list) parts rest
    exact ⟨r, rest, (skipFrom_of_opened opened).trans inside⟩
  | object ms ih =>
    intro bs ts s _ h
    rw [Value.tokens, memberTokens_eq, List.cons_append, List.append_assoc] at h
    obtain ⟨t, rest, skip⟩ := h.exists_skipSpace (by decide)
    have opened : skipBeginning s = .ok (.opened .object t) := by
      rw [skipBeginning, skip]
      rfl
    have parts : ∀ g ∈ ms.map (fun m => quoted m.1 :: [':'] :: m.2.tokens), ∃ v, Bracket.object.Part g v ∧ Passes v := by
      intro g hg
      obtain ⟨m, hm, rfl⟩ := List.mem_map.1 hg
      exact ⟨m.2, .member, ih m hm⟩
    obtain ⟨r, rest, inside⟩ := skipFrom_separated (b := .object) parts rest
    exact ⟨r, rest, (skipFrom_of_opened opened).trans inside⟩

/-- One value is passed over, and nothing behind it. -/
theorem exists_skip (stops : Stops ts) (h : Spaced (v.tokens ++ ts) s) : ∃ r, Spaced ts r ∧ skip s = .ok r := by
  obtain ⟨r, rest, value⟩ := passes v [] stops h
  exact ⟨r, rest, value.trans (skipFrom.eq_2 .behind r (by decide))⟩

end GlobeDrag.Json
