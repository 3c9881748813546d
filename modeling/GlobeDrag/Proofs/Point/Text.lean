import GlobeDrag.Proofs.Decimal.Literal
import GlobeDrag.Proofs.Point.Degrees

/-!
# Points from texts

A text is a point if its first comma stands between two literals whose degrees are in their ranges. A text of another form is reported
as a whole, before any range is looked at; then the latitude is reported before the longitude.

Main statement: `ofText_accepts_pairs` (which texts are points, which point they are, and what is reported of the others).
-/

namespace GlobeDrag.Point

open Decimal (WritesDouble doubleOfChars?_trim)

variable {text : String} {cs before after : List Char} {lat lon : Float}

/-! ## Pairs -/

/-- The text is two literals on both sides of its first comma, blanks around each being ignored. -/
def IsPair (text : String) (lat lon : Float) : Prop :=
  ∃ before after, text.toList = before ++ ',' :: after ∧ ',' ∉ before ∧ WritesDouble before lat ∧ WritesDouble after lon

/-- A text is split at its first comma. -/
theorem splitAtComma_eq_some : splitAtComma cs = some (before, after) ↔ cs = before ++ ',' :: after ∧ ',' ∉ before := by
  constructor
  · intro h
    unfold splitAtComma at h
    split at h
    · cases h
    · next c r rest =>
      cases h
      have first : c = ',' := by
        have := List.head?_dropWhile_not (· ≠ ',') cs
        rw [rest] at this
        simpa using this
      rw [first] at rest
      constructor
      · rw [← rest, List.takeWhile_append_dropWhile]
      · intro comma
        have := List.mem_takeWhile_imp comma
        simp at this
  · rintro ⟨rfl, none⟩
    have others : ∀ c ∈ before, decide (c ≠ ',') = true := by
      intro c hc
      rw [decide_eq_true_iff]
      rintro rfl
      exact none hc
    unfold splitAtComma
    rw [List.dropWhile_append_of_pos others, List.takeWhile_append_of_pos others]
    simp

/-- The degrees that are read are those of a pair. -/
theorem degreesOfText?_eq_some : degreesOfText? text = some (lat, lon) ↔ IsPair text lat lon := by
  unfold degreesOfText? IsPair
  simp only [Option.bind_eq_bind, Option.bind_eq_some_iff]
  constructor
  · rintro ⟨⟨before, after⟩, hs, lat', hlat, lon', hlon, eq⟩
    cases eq
    obtain ⟨parts, first⟩ := splitAtComma_eq_some.1 hs
    exact ⟨before, after, parts, first, doubleOfChars?_trim.1 hlat, doubleOfChars?_trim.1 hlon⟩
  · rintro ⟨before, after, parts, first, hlat, hlon⟩
    exact ⟨(before, after), splitAtComma_eq_some.2 ⟨parts, first⟩, lat, doubleOfChars?_trim.2 hlat, lon, doubleOfChars?_trim.2 hlon,
      rfl⟩

/-- A pair has one comma. -/
theorem IsPair.count_comma (h : IsPair text lat lon) : text.toList.count ',' = 1 := by
  obtain ⟨before, after, parts, first, -, hlon⟩ := h
  rw [parts, List.count_append, List.count_cons_self, List.count_eq_zero.2 first, List.count_eq_zero.2 hlon.comma_not_mem]

/-! ## Reading -/

/-- A pair is read as its degrees. -/
theorem ofText_of_isPair (h : IsPair text lat lon) : ofText text = ofDegrees lat lon := by
  rw [ofText, degreesOfText?_eq_some.2 h]

/-- Any other text is unreadable. -/
theorem ofText_of_not_isPair (h : ¬∃ lat lon, IsPair text lat lon) : ofText text = .error (.unreadable text) := by
  have none : degreesOfText? text = none := by
    refine Option.eq_none_iff_forall_ne_some.2 fun pair some => h ⟨pair.1, pair.2, ?_⟩
    exact degreesOfText?_eq_some.1 some
  rw [ofText, none]

/-- The result is that of the degrees of a pair, or the report of a text that is none. -/
theorem ofText_eq_iff {r : Except PointError Point} : ofText text = r ↔
    (∃ lat lon, IsPair text lat lon ∧ ofDegrees lat lon = r) ∨
      (¬∃ lat lon, IsPair text lat lon) ∧ .error (.unreadable text) = r := by
  constructor
  · rintro rfl
    by_cases pair : ∃ lat lon, IsPair text lat lon
    · obtain ⟨lat, lon, h⟩ := pair
      exact .inl ⟨lat, lon, h, (ofText_of_isPair h).symm⟩
    · exact .inr ⟨pair, (ofText_of_not_isPair pair).symm⟩
  · rintro (⟨lat, lon, h, rfl⟩ | ⟨pair, rfl⟩)
    · exact ofText_of_isPair h
    · exact ofText_of_not_isPair pair

/-- A text is a point exactly if it is a pair whose degrees are in their ranges, and then it is the point of these degrees. A text that is
not a pair, as every text with a second comma, is reported as a whole. Of a pair the latitude is reported if it is out of its range, and
otherwise the longitude. -/
theorem ofText_accepts_pairs (text : String) :
    ((∃ p, ofText text = .ok p) ↔
      ∃ lat lon, IsPair text lat lon ∧ (-90 ≤ lat ∧ lat ≤ 90) ∧ (-180 ≤ lon ∧ lon ≤ 180)) ∧
    (∀ lat lon, IsPair text lat lon → ofText text = ofDegrees lat lon) ∧
    (∀ t, ofText text = .error (.unreadable t) ↔ t = text ∧ ¬∃ lat lon, IsPair text lat lon) ∧
    (∀ lat, ofText text = .error (.latitude lat) ↔ ∃ lon, IsPair text lat lon ∧ ¬(-90 ≤ lat ∧ lat ≤ 90)) ∧
    (∀ lon, ofText text = .error (.longitude lon) ↔
      ∃ lat, IsPair text lat lon ∧ (-90 ≤ lat ∧ lat ≤ 90) ∧ ¬(-180 ≤ lon ∧ lon ≤ 180)) ∧
    (2 ≤ text.toList.count ',' → ofText text = .error (.unreadable text)) := by
  refine ⟨?_, fun _ _ => ofText_of_isPair, ?_, ?_, ?_, ?_⟩
  · simp only [ofText_eq_iff, ofDegrees_eq_ok]
    constructor
    · rintro ⟨p, ⟨lat, lon, h, hlat, hlon, -⟩ | ⟨-, ⟨⟩⟩⟩
      exact ⟨lat, lon, h, hlat, hlon⟩
    · rintro ⟨lat, lon, h, hlat, hlon⟩
      exact ⟨_, .inl ⟨lat, lon, h, hlat, hlon, rfl⟩⟩
  · intro t
    simp [ofText_eq_iff, ofDegrees_ne_unreadable, eq_comm, and_comm]
  · intro lat
    simp only [ofText_eq_iff, ofDegrees_eq_latitude]
    constructor
    · rintro (⟨_, lon, h, rfl, out⟩ | ⟨-, ⟨⟩⟩)
      exact ⟨lon, h, out⟩
    · rintro ⟨lon, h, out⟩
      exact .inl ⟨lat, lon, h, rfl, out⟩
  · intro lon
    simp only [ofText_eq_iff, ofDegrees_eq_longitude]
    constructor
    · rintro (⟨lat, _, h, rfl, out⟩ | ⟨-, ⟨⟩⟩)
      exact ⟨lat, h, out⟩
    · rintro ⟨lat, h, out⟩
      exact .inl ⟨lat, lon, h, rfl, out⟩
  · intro commas
    refine ofText_of_not_isPair ?_
    rintro ⟨lat, lon, h⟩
    rw [h.count_comma] at commas
    omega

/-- Infinity is a literal in any letter case, but no latitude. -/
example : ofText " -INF, 0" = .error (.latitude (-(1 / 0))) := rfl

end GlobeDrag.Point
