import GlobeDrag.Json.Number
import GlobeDrag.Proofs.Decimal.Shortest

/-!
# Written numbers are read

A number taken apart is put together again by `Number.print`, and `Number.scan` inverts that. Decimals are written in one of three
forms, each of which is the print of a number whose digits come to the significand, up to a zero behind the point.

Main statements: `Number.scan_print` (what is printed is taken apart again), `Number.value_eq` (what a number comes to) and
`exists_decimalText` (how a decimal is written).
-/

namespace GlobeDrag.Json

open Decimal (ofDigits Scaled)

namespace Number

/-! ## Printing -/

/-- Digits and nothing else, at least one. -/
structure IsRun (ds : List Char) : Prop where
  ne_nil : ds ≠ []
  isDigit : ∀ c ∈ ds, c.isDigit = true

/-- The text of a sign. -/
def signChars (negative : Bool) : List Char :=
  if negative then ['-'] else []

/-- The digits after the point, behind the point. -/
def fractionChars : Option (List Char) → List Char
  | none => []
  | some ds => '.' :: ds

/-- A power of ten with its sign. -/
def exponentChars : Option (Bool × List Char) → List Char
  | none => []
  | some (negative, ds) => 'e' :: (if negative then '-' else '+') :: ds

/-- How a power of ten may be written: behind a small or a capital letter, where a plus sign may be left out. -/
inductive SpellsExponent : Option (Bool × List Char) → List Char → Prop
  | absent : SpellsExponent none []
  | written {mark : Char} {sign ds : List Char} {negative : Bool} (letter : mark = 'e' ∨ mark = 'E')
      (signed : sign = ['-'] ∧ negative = true ∨ (sign = ['+'] ∨ sign = []) ∧ negative = false) :
      SpellsExponent (some (negative, ds)) (mark :: (sign ++ ds))

/-- An exponent is spelled as it is written. -/
theorem spellsExponent_exponentChars (e : Option (Bool × List Char)) : SpellsExponent e (exponentChars e) := by
  cases e with
  | none => exact .absent
  | some p =>
    obtain ⟨negative, ds⟩ := p
    cases negative with
    | false => exact .written (Or.inl rfl) (Or.inr ⟨Or.inl rfl, rfl⟩)
    | true => exact .written (Or.inl rfl) (Or.inl ⟨rfl, rfl⟩)

/-- The text of a number. -/
def print (x : Number) : List Char :=
  signChars x.negative ++ (x.whole ++ (fractionChars x.fraction ++ exponentChars x.exponent))

/-- The parts of a number are as the grammar wants them. -/
structure IsPlain (x : Number) : Prop where
  whole : IsRun x.whole
  /-- Only a zero alone begins with a zero. -/
  leading : x.whole.head? ≠ some '0' ∨ x.whole.length = 1
  fraction : ∀ ds ∈ x.fraction, IsRun ds
  exponent : ∀ e ∈ x.exponent, IsRun e.2

/-- A text in front of which a number ends. -/
def Ends (s : List Char) : Prop := ∀ c ∈ s.head?, c.isDigit = false ∧ c ≠ '.' ∧ c ≠ 'e' ∧ c ≠ 'E'

/-- A text that does not begin with a digit. -/
def EndsRun (s : List Char) : Prop := ∀ c ∈ s.head?, c.isDigit = false

variable {atEnd : Cause} {s ds : List Char} {x : Number}

/-- What ends a number ends a run of digits. -/
theorem Ends.endsRun (h : Ends s) : EndsRun s := fun c hc => (h c hc).1

/-- Digits are taken up to where their run ends. -/
theorem EndsRun.takeWhile_append (hs : EndsRun s) (h : ∀ c ∈ ds, c.isDigit = true) : (ds ++ s).takeWhile Char.isDigit = ds := by
  have none : s.takeWhile Char.isDigit = [] := by
    cases s with
    | nil => rfl
    | cons c r => exact List.takeWhile_cons_of_neg (by simp [hs c rfl])
  rw [List.takeWhile_append_of_pos h, none, List.append_nil]

/-- Behind a run of digits its end is left. -/
theorem EndsRun.dropWhile_append (hs : EndsRun s) (h : ∀ c ∈ ds, c.isDigit = true) : (ds ++ s).dropWhile Char.isDigit = s := by
  rw [List.dropWhile_append_of_pos h]
  cases s with
  | nil => rfl
  | cons c r => exact List.dropWhile_cons_of_neg (by simp [hs c rfl])

/-- An exponent ends the digits before it. -/
theorem SpellsExponent.endsRun {e : Option (Bool × List Char)} {t : List Char} (h : SpellsExponent e t) (hs : Ends s) :
    EndsRun (t ++ s) ∧ (t ++ s).head? ≠ some '.' := by
  cases h with
  | absent => exact ⟨hs.endsRun, fun hp => (hs '.' hp).2.1 rfl⟩
  | written letter signed =>
    rcases letter with rfl | rfl
    · exact ⟨by rintro c ⟨⟩; rfl, by simp⟩
    · exact ⟨by rintro c ⟨⟩; rfl, by simp⟩

theorem endsRun_fractionChars (f : Option (List Char)) (h : EndsRun s) : EndsRun (fractionChars f ++ s) := by
  cases f with
  | none => exact h
  | some ds =>
    rintro c ⟨⟩
    rfl

/-- A run of digits is read in front of what ends it. -/
theorem digitRun_append (h : IsRun ds) (hs : EndsRun s) : digitRun atEnd (ds ++ s) = .ok (ds, s) := by
  have take := hs.takeWhile_append h.isDigit
  have drop := hs.dropWhile_append h.isDigit
  obtain ⟨d, t, rfl⟩ := List.exists_cons_of_ne_nil h.ne_nil
  rw [List.cons_append] at take drop
  rw [List.cons_append, digitRun, if_pos (h.isDigit d List.mem_cons_self), take, drop]

/-- So are the digits before the point, without a leading zero. -/
theorem wholeDigits_append (h : IsRun ds) (leading : ds.head? ≠ some '0' ∨ ds.length = 1) (hs : EndsRun s) :
    wholeDigits atEnd (ds ++ s) = .ok (ds, s) := by
  rw [wholeDigits, digitRun_append h hs]
  simp only [bind, Except.bind]
  rw [if_neg (by tauto)]
  rfl

/-- So is a fraction. -/
theorem fractionDigits_append {f : Option (List Char)} (h : ∀ ds ∈ f, IsRun ds) (hs : EndsRun s) (point : s.head? ≠ some '.') :
    fractionDigits atEnd (fractionChars f ++ s) = .ok (f, s) := by
  cases f with
  | none =>
    rw [fractionChars, List.nil_append]
    unfold fractionDigits
    split
    · exact absurd rfl point
    · rfl
  | some ds =>
    rw [fractionChars, List.cons_append, fractionDigits, digitRun_append (h ds rfl) hs]
    rfl

/-- So is the sign of an exponent. -/
theorem exponentSign_append {sign : List Char} {negative : Bool} (run : IsRun ds)
    (signed : sign = ['-'] ∧ negative = true ∨ (sign = ['+'] ∨ sign = []) ∧ negative = false) :
    exponentSign (sign ++ (ds ++ s)) = (negative, ds ++ s) := by
  rcases signed with ⟨rfl, rfl⟩ | ⟨rfl | rfl, rfl⟩
  · rfl
  · rfl
  · obtain ⟨d, t, rfl⟩ := List.exists_cons_of_ne_nil run.ne_nil
    have digit : d.isDigit = true := run.isDigit d List.mem_cons_self
    rw [List.nil_append, List.cons_append]
    unfold exponentSign
    split
    · next h =>
      rw [(List.cons.inj h).1] at digit
      cases digit
    · next h =>
      rw [(List.cons.inj h).1] at digit
      cases digit
    · rfl

/-- So is an exponent. -/
theorem exponentDigits_append {e : Option (Bool × List Char)} {t : List Char} (h : ∀ p ∈ e, IsRun p.2) (ht : SpellsExponent e t)
    (hs : Ends s) : exponentDigits atEnd (t ++ s) = .ok (e, s) := by
  cases ht with
  | absent =>
    rw [List.nil_append]
    cases s with
    | nil => rfl
    | cons c r =>
      obtain ⟨-, -, he, hE⟩ := hs c rfl
      rw [exponentDigits, if_neg (by tauto)]
  | @written mark sign ds negative letter signed =>
    have run : IsRun ds := h _ rfl
    have digits : digitRun atEnd (ds ++ s) = .ok (ds, s) := digitRun_append run hs.endsRun
    rw [List.cons_append, List.append_assoc, exponentDigits, if_pos letter, exponentSign_append run signed]
    simp only [digits]
    rfl

/-- A number begins with a minus sign or a digit. -/
theorem exists_signChars_append (run : IsRun ds) (negative : Bool) (t : List Char) :
    ∃ c r, signChars negative ++ (ds ++ t) = c :: r ∧ (c = '-' ∨ c.isDigit = true) := by
  obtain ⟨d, r, rfl⟩ := List.exists_cons_of_ne_nil run.ne_nil
  cases negative with
  | true => exact ⟨_, _, rfl, Or.inl rfl⟩
  | false => exact ⟨d, _, rfl, Or.inr (run.isDigit d List.mem_cons_self)⟩

theorem ne_of_begins {c d : Char} (h : c = '-' ∨ c.isDigit = true) (hd : ¬(d = '-' ∨ d.isDigit = true)) : c ≠ d := by
  rintro rfl
  exact hd h

theorem isSpace_of_begins {c : Char} (h : c = '-' ∨ c.isDigit = true) : isSpace c = false := by
  rw [Bool.eq_false_iff]
  intro hs
  rw [isSpace, decide_eq_true_iff] at hs
  rcases hs with rfl | rfl | rfl | rfl <;> revert h <;> decide

/-- A minus in front of the digits is split off. -/
theorem splitSign_append (h : IsRun x.whole) (t : List Char) :
    (if (signChars x.negative ++ (x.whole ++ t)).head? = some '-' then (true, (signChars x.negative ++ (x.whole ++ t)).drop 1)
      else (false, signChars x.negative ++ (x.whole ++ t))) = (x.negative, x.whole ++ t) := by
  cases x.negative with
  | true => rfl
  | false =>
    obtain ⟨d, r, hd⟩ := List.exists_cons_of_ne_nil h.ne_nil
    have digit : d.isDigit = true := h.isDigit d (by rw [hd]; exact List.mem_cons_self)
    rw [hd, if_neg]
    · rfl
    · rintro ⟨⟩
      cases digit

/-- A number is taken apart, however its power of ten is written. -/
theorem scan_append {t : List Char} (h : x.IsPlain) (ht : SpellsExponent x.exponent t) (hs : Ends s) :
    scan atEnd (signChars x.negative ++ (x.whole ++ (fractionChars x.fraction ++ t)) ++ s) = .ok (x, s) := by
  obtain ⟨behind, point⟩ := ht.endsRun hs
  have whole := @wholeDigits_append atEnd _ _ h.whole h.leading (endsRun_fractionChars x.fraction behind)
  have fraction := @fractionDigits_append atEnd _ _ h.fraction behind point
  have exponent := @exponentDigits_append atEnd _ _ _ h.exponent ht hs
  rw [scan, List.append_assoc, List.append_assoc, List.append_assoc, splitSign_append h.whole]
  simp only [whole, fraction, exponent, bind, Except.bind]
  rfl

/-- What is printed is taken apart again. -/
theorem scan_print (h : x.IsPlain) (hs : Ends s) : scan atEnd (x.print ++ s) = .ok (x, s) :=
  scan_append h (spellsExponent_exponentChars x.exponent) hs

/-! ## Values -/

/-- More digits do not make a number smaller. -/
theorem ofDigitChars_mono (ds : List Char) (n : ℕ) : n ≤ Nat.ofDigitChars 10 ds n := by
  induction ds generalizing n with
  | nil => exact le_rfl
  | cons c r ih =>
    rw [Nat.ofDigitChars_cons]
    exact le_trans (by omega) (ih _)

/-- Digits that stay below the limit are gathered. -/
theorem gather_eq {n : ℕ} (h : Nat.ofDigitChars 10 ds n < gatherLimit) : gather n ds = (Nat.ofDigitChars 10 ds n, []) := by
  induction ds generalizing n with
  | nil => rfl
  | cons c r ih =>
    rw [Nat.ofDigitChars_cons] at h
    have room := (ofDigitChars_mono r _).trans_lt h
    rw [gather]
    rw [if_pos room, ih h, Nat.ofDigitChars_cons]

/-- The power of ten that is written. -/
def writtenPower : Option (Bool × List Char) → ℤ
  | none => 0
  | some (negative, ds) => if negative then -(ofDigits ds : ℤ) else ofDigits ds

/-- A number comes to `n * 10 ^ p`: its digits are those of `n`, not too many to be gathered, and it is not written like a whole
number. -/
structure ComesTo (x : Number) (n : ℕ) (p : ℤ) : Prop where
  digits : ofDigits (x.whole ++ x.fraction.getD []) = n
  lt_limit : n < gatherLimit
  power : writtenPower x.exponent - (x.fraction.getD []).length = p
  exponent_le : ∀ e ∈ x.exponent, ofDigits e.2 ≤ exponentLimit
  not_whole : x.exponent = none → x.fraction ≠ none

/-- The value of a number is what it comes to, rounded twice: the digits first, then the product. -/
theorem value_eq {n : ℕ} {p : ℤ} (h : x.ComesTo n p) :
    x.value = (scale (gathered n) p).map fun f => .double (signed x.negative f) := by
  obtain ⟨negative, whole, fraction, exponent⟩ := x
  obtain ⟨digits, limit, power, small, notWhole⟩ := h
  simp only at digits power small notWhole
  have all : Nat.ofDigitChars 10 (fraction.getD []) (ofDigits whole) = n := by
    rw [← digits]
    exact (Nat.ofDigitChars_append 0).symm
  have first : gather 0 whole = (ofDigits whole, []) :=
    gather_eq (((ofDigitChars_mono _ _).trans_eq all).trans_lt limit)
  have second : gather (ofDigits whole) (fraction.getD []) = (n, []) := by
    rw [gather_eq (all.trans_lt limit), all]
  have shift : ((([] : List Char).length : ℤ) - ((fraction.getD []).length - ([] : List Char).length : ℕ)) =
      -((fraction.getD []).length : ℤ) := by simp
  unfold value
  simp only [first, second, shift]
  cases exponent with
  | none =>
    rw [if_neg (fun h => notWhole rfl h.1)]
    rw [writtenPower, zero_sub] at power
    rw [power]
    cases scale (gathered n) p <;> rfl
  | some e =>
    obtain ⟨sign, ds⟩ := e
    simp only
    rw [if_neg (not_lt.2 (small _ rfl))]
    rw [writtenPower] at power
    rw [neg_add_eq_sub, power]
    cases scale (gathered n) p <;> rfl

end Number

/-! ## Digits -/

theorem isRun_toDigits (n : ℕ) : Number.IsRun (Nat.toDigits 10 n) :=
  ⟨Nat.toDigits_ne_nil, fun _ => Nat.isDigit_of_mem_toDigits (by decide) (by decide)⟩

theorem isDigit_of_mem_replicate {k : ℕ} {c : Char} (h : c ∈ List.replicate k '0') : c.isDigit = true := by
  rw [List.eq_of_mem_replicate h]
  rfl

/-- A positive number is not written with a zero in front. -/
theorem head?_toDigits {n : ℕ} (h : 0 < n) : (Nat.toDigits 10 n).head? ≠ some '0' := by
  induction n using Nat.strong_induction_on with
  | _ n ih =>
    rcases Nat.lt_or_ge n 10 with hn | hn
    · rw [Nat.toDigits_of_lt_base hn, List.head?_cons]
      interval_cases n <;> decide
    · rw [Nat.toDigits_of_base_le (by decide) hn, List.head?_append_of_ne_nil _ Nat.toDigits_ne_nil]
      exact ih (n / 10) (by omega) (by omega)

/-- A number has enough digits. -/
theorem lt_ten_pow_length (n : ℕ) : n < 10 ^ (Nat.toDigits 10 n).length :=
  (Nat.length_toDigits_le_iff (by decide) Nat.length_toDigits_pos).1 le_rfl

/-- Zeros behind a number multiply it. -/
theorem ofDigitChars_replicate (k n : ℕ) : Nat.ofDigitChars 10 (List.replicate k '0') n = n * 10 ^ k := by
  induction k generalizing n with
  | zero => simp
  | succ k ih =>
    rw [List.replicate_succ, Nat.ofDigitChars_cons, ih, pow_succ]
    simp only [Nat.sub_self, Nat.add_zero]
    ring

theorem ofDigits_append (ds es : List Char) : ofDigits (ds ++ es) = Nat.ofDigitChars 10 es (ofDigits ds) :=
  Nat.ofDigitChars_append 0

theorem ofDigits_toDigits (n : ℕ) : ofDigits (Nat.toDigits 10 n) = n :=
  Nat.ofDigitChars_ten_toDigits

/-- Zeros in front change nothing. -/
theorem ofDigits_replicate_append (k : ℕ) (ds : List Char) : ofDigits (List.replicate k '0' ++ ds) = ofDigits ds := by
  have zeros : ofDigits (List.replicate k '0') = 0 := (ofDigitChars_replicate k 0).trans (Nat.zero_mul _)
  rw [ofDigits_append, zeros]
  rfl

/-! ## Written decimals -/

/-- The whole number and the power of ten that a decimal is written with: one zero stands behind the point of a whole number. -/
def written (d : Scaled) : ℕ × ℤ :=
  if 0 ≤ d.exponent ∧ d.magnitude ≤ 15 then (d.significand * 10 ^ (d.exponent.toNat + 1), -1) else (d.significand, d.exponent)

/-- Numbers whose print is `text`. -/
structure IsPrint (negative : Bool) (text : List Char) (n : ℕ) (p : ℤ) (x : Number) : Prop where
  negative_eq : x.negative = negative
  print_eq : x.print = Number.signChars negative ++ text
  isPlain : x.IsPlain
  comesTo : x.ComesTo n p

variable {d : Scaled}

/-- A decimal number without a fraction is written as a number. -/
theorem exists_wholeText (negative : Bool) (h : 0 < d.significand) (hk : 0 ≤ d.exponent) (hm : d.magnitude ≤ 15) :
    ∃ x, IsPrint negative (d.positional ++ ['.', '0']) (d.significand * 10 ^ (d.exponent.toNat + 1)) (-1) x := by
  have run := isRun_toDigits d.significand
  refine ⟨⟨negative, d.digits ++ List.replicate d.exponent.toNat '0', some ['0'], none⟩, rfl, ?_, ?_, ?_⟩
  · rw [Scaled.positional, if_pos hk, Number.print, Number.exponentChars, List.append_nil]
    rfl
  · refine ⟨⟨?_, ?_⟩, Or.inl ?_, ?_, nofun⟩
    · exact fun hn => run.ne_nil (List.append_eq_nil_iff.1 hn).1
    · intro c hc
      rcases List.mem_append.1 hc with hc | hc
      · exact run.isDigit c hc
      · exact isDigit_of_mem_replicate hc
    · change (d.digits ++ List.replicate d.exponent.toNat '0').head? ≠ some '0'
      rw [List.head?_append_of_ne_nil d.digits run.ne_nil]
      exact head?_toDigits h
    · rintro ds ⟨⟩
      refine ⟨List.cons_ne_nil _ _, fun c hc => ?_⟩
      rw [List.mem_singleton.1 hc]
      rfl
  · refine ⟨?_, ?_, rfl, nofun, nofun⟩
    · change ofDigits (d.digits ++ List.replicate d.exponent.toNat '0' ++ ['0']) = _
      rw [List.append_assoc, ← List.replicate_succ', ofDigits_append, ofDigitChars_replicate, Scaled.digits, ofDigits_toDigits]
    · have size := lt_ten_pow_length d.significand
      rw [Scaled.magnitude, Scaled.digits] at hm
      calc d.significand * 10 ^ (d.exponent.toNat + 1)
          < 10 ^ (Nat.toDigits 10 d.significand).length * 10 ^ (d.exponent.toNat + 1) :=
            Nat.mul_lt_mul_of_pos_right size (by positivity)
        _ = 10 ^ ((Nat.toDigits 10 d.significand).length + (d.exponent.toNat + 1)) := (pow_add ..).symm
        _ ≤ 10 ^ 17 := Nat.pow_le_pow_right (by decide) (by omega)
        _ ≤ Number.gatherLimit := by decide

/-- So is one with a fraction. -/
theorem exists_fractionText (negative : Bool) (h : 0 < d.significand) (bits : d.significand < 2 ^ 59) (hk : d.exponent < 0) :
    ∃ x, IsPrint negative d.positional d.significand d.exponent x := by
  have run := isRun_toDigits d.significand
  set places := (-d.exponent).toNat with hplaces
  set padded := List.replicate (places + 1 - d.digits.length) '0' ++ d.digits with hpadded
  have length : padded.length = places + 1 - d.digits.length + d.digits.length := by simp [hpadded]
  have cut : padded.take (padded.length - places) ++ padded.drop (padded.length - places) = padded := List.take_append_drop _ _
  have behind : (padded.drop (padded.length - places)).length = places := by
    rw [List.length_drop]
    omega
  have digit : ∀ c ∈ padded, c.isDigit = true := by
    intro c hc
    rcases List.mem_append.1 hc with hc | hc
    · exact isDigit_of_mem_replicate hc
    · exact run.isDigit c hc
  have rest : padded.drop (padded.length - places) ≠ [] := by
    rw [ne_eq, ← List.length_eq_zero_iff, behind]
    omega
  refine ⟨⟨negative, padded.take (padded.length - places), some (padded.drop (padded.length - places)), none⟩, rfl, ?_, ?_, ?_⟩
  · have point : d.positional = padded.take (padded.length - places) ++ '.' :: padded.drop (padded.length - places) := by
      rw [Scaled.positional, if_neg (by omega), Decimal.pointBefore]
      simp only [← hplaces, ← hpadded]
      rw [if_neg (by rwa [List.isEmpty_iff])]
    rw [point, Number.print, Number.exponentChars, List.append_nil]
    rfl
  · refine ⟨⟨?_, fun c hc => digit c (List.mem_of_mem_take hc)⟩, ?_, ?_, nofun⟩
    · rw [ne_eq, ← List.length_eq_zero_iff, List.length_take]
      omega
    · rcases Nat.lt_or_ge places d.digits.length with hl | hl
      · have unpadded : padded = d.digits := by rw [hpadded, Nat.sub_eq_zero_of_le hl, List.replicate_zero, List.nil_append]
        left
        rw [unpadded, List.head?_take, if_neg (by omega)]
        exact head?_toDigits h
      · right
        rw [List.length_take]
        omega
    · rintro ds ⟨⟩
      exact ⟨rest, fun c hc => digit c (List.mem_of_mem_drop hc)⟩
  · refine ⟨?_, bits.trans (by decide), ?_, nofun, nofun⟩
    · change ofDigits (padded.take _ ++ padded.drop _) = _
      rw [cut, hpadded, ofDigits_replicate_append]
      exact ofDigits_toDigits _
    · change (0 : ℤ) - (padded.drop _).length = _
      rw [behind]
      omega

/-- So is one with an exponent. -/
theorem exists_scientificText (negative : Bool) (bits : d.significand < 2 ^ 59) (h1 : -400 ≤ d.exponent) (h2 : d.exponent ≤ 308) :
    ∃ x, IsPrint negative (scientificText d) d.significand d.exponent x := by
  have run := isRun_toDigits d.significand
  obtain ⟨c, tail, digits⟩ : ∃ c tail, d.digits = c :: tail := List.exists_cons_of_ne_nil run.ne_nil
  have digit : ∀ e ∈ c :: tail, e.isDigit = true := fun e he => run.isDigit e (by rwa [← digits] at he)
  have value : ofDigits (c :: tail) = d.significand := by
    rw [← digits]
    exact ofDigits_toDigits _
  have magnitude : d.magnitude = d.exponent + tail.length := by
    rw [Scaled.magnitude, digits, List.length_cons]
    omega
  have short : tail.length < 18 := by
    have : (Nat.toDigits 10 d.significand).length ≤ 18 :=
      (Nat.length_toDigits_le_iff (by decide) (by decide)).2 (bits.trans (by decide))
    rw [← Scaled.digits, digits, List.length_cons] at this
    omega
  refine ⟨⟨negative, [c], if tail = [] then none else some tail, some (d.magnitude < 0, Nat.toDigits 10 d.magnitude.natAbs)⟩,
    rfl, ?_, ?_, ?_⟩
  · unfold scientificText Number.print Number.exponentChars Number.fractionChars
    simp only [digits]
    cases tail <;> simp
  · refine ⟨⟨List.cons_ne_nil _ _, fun e he => digit e ?_⟩, Or.inr rfl, ?_, ?_⟩
    · rw [List.mem_singleton.1 he]
      exact List.mem_cons_self
    · intro ds hds
      simp only at hds
      split at hds
      · cases hds
      · next hne =>
        cases hds
        exact ⟨hne, fun e he => digit e (List.mem_cons_of_mem _ he)⟩
    · rintro e ⟨⟩
      exact isRun_toDigits _
  · have fraction : (if tail = [] then none else some tail).getD [] = tail := by
      cases tail <;> simp
    refine ⟨?_, bits.trans (by decide), ?_, ?_, fun h => absurd h (Option.some_ne_none _)⟩
    · simp only [fraction]
      exact value
    · simp only [fraction, Number.writtenPower, ofDigits_toDigits, decide_eq_true_iff]
      split <;> omega
    · rintro e ⟨⟩
      rw [ofDigits_toDigits, Number.exponentLimit]
      omega

/-- How a decimal is written. -/
theorem exists_decimalText (negative : Bool) (h : 0 < d.significand) (bits : d.significand < 2 ^ 59) (h1 : -400 ≤ d.exponent)
    (h2 : d.exponent ≤ 308) : ∃ x, IsPrint negative (decimalText d) (written d).1 (written d).2 x := by
  have one : (1 : ℤ) ≤ d.digits.length := by exact_mod_cast List.length_pos_iff.2 (isRun_toDigits d.significand).ne_nil
  unfold decimalText written positionalMagnitudes
  simp only
  by_cases hk : 0 ≤ d.exponent
  · by_cases hm : d.magnitude ≤ 15
    · rw [if_pos ⟨by rw [Scaled.magnitude]; omega, hm⟩, if_pos hk, if_pos ⟨hk, hm⟩]
      exact exists_wholeText negative h hk hm
    · rw [if_neg (by tauto), if_neg (by tauto)]
      exact exists_scientificText negative bits h1 h2
  · rw [if_neg (c := 0 ≤ d.exponent ∧ d.magnitude ≤ 15) (by tauto)]
    split
    · exact exists_fractionText negative h bits (by omega)
    · exact exists_scientificText negative bits h1 h2

end GlobeDrag.Json
