import GlobeDrag.Json.Geometry
import GlobeDrag.Proofs.Extent.Again
import GlobeDrag.Proofs.Json.Double
import GlobeDrag.Proofs.Json.Record

/-!
# Extents as JSON, written and read

An extent that is written as JSON can always be read. Absent bounds and bounds that are not finite come back absent, all others come back
as the same double or one close to it: the same if they are degrees of up to thirteen decimal places, but with more places not always.

Main statements: `ofJson_toJson_eq` (what comes back, bound by bound), `ofJson_toJson` and, against what one might expect of every
precision that can be set, `ofJson_toJson_moves`.
-/

namespace GlobeDrag

open Angle Binary64 Json

/-! ## Bounds that may be absent -/

namespace Json

/-- What ends a member ends a number. -/
theorem EndsMember.ends {s : List Char} (h : EndsMember s) : Number.Ends s := by
  intro c hc
  rcases h with h | h <;> rw [h] at hc <;> cases hc <;> decide

theorem ends_nil : Number.Ends [] := nofun

/-- A number is read where it may be absent. -/
theorem readOptional_of_readDouble {s r : List Char} {y : Float} (h : Format.readDouble s = .ok (y, r)) :
    Format.double.optional.read s = .ok (some y, r) := by
  change Format.readOptional Format.double s = _
  unfold Format.readOptional
  split
  · next t ht =>
    rw [Format.readDouble, ht] at h
    cases h
  · change (Format.readDouble s).map _ = _
    rw [h]
    rfl

theorem readOptional_null (s : List Char) : Format.double.optional.read ("null".toList ++ s) = .ok (none, s) := rfl

/-- What a bound comes back as. -/
def returned (x : Float) : Option Float :=
  (Format.double.optional.read (doubleText x).toList).toOption.bind (·.1)

/-- What comes back of a double is what is read from its text. -/
theorem returned_eq {x : Float} {b : Option Float}
    (h : Format.double.optional.read ((doubleText x).toList ++ []) = .ok (b, [])) : returned x = b := by
  rw [List.append_nil] at h
  rw [returned, h]
  rfl

/-- Nothing comes back of a double that is not finite. -/
theorem returned_of_not_isFinite {x : Float} (hx : x.isFinite = false) : returned x = none := by
  refine returned_eq ?_
  rw [doubleText_of_not_isFinite hx]
  exact readOptional_null []

/-- A double that returns comes back of a finite one. -/
theorem returned_of_isFinite {x : Float} (hx : x.isFinite = true) : ∃ y, returned x = some y ∧ Returns x y := by
  obtain ⟨y, hy, read⟩ := readDouble_doubleText hx
  exact ⟨y, returned_eq (readOptional_of_readDouble (read [] ends_nil)), hy⟩

/-- The text of a double is read up to its end, whatever follows. -/
theorem read_doubleText (x : Float) {s : List Char} (hs : Number.Ends s) :
    Format.double.optional.read ((doubleText x).toList ++ s) = .ok (returned x, s) := by
  cases hx : x.isFinite with
  | false =>
    rw [doubleText_of_not_isFinite hx, returned_of_not_isFinite hx]
    exact readOptional_null s
  | true =>
    obtain ⟨y, -, read⟩ := readDouble_doubleText hx
    rw [returned_eq (readOptional_of_readDouble (read [] ends_nil))]
    exact readOptional_of_readDouble (read s hs)

end Json

namespace Extent

/-! ## The whole extent -/

/-- What an extent comes back as. -/
def returned (e : Extent) : Extent :=
  ⟨e.north.bind Json.returned, e.south.bind Json.returned, e.east.bind Json.returned, e.west.bind Json.returned⟩

/-- A bound as a member of a JSON object. -/
def entry (bound : String × Float) : Entry (Option Float) :=
  ⟨bound.1, (doubleText bound.2).toList, Json.returned bound.2⟩

/-- The members of an extent as they are written. -/
theorem compactMembers_eq (bounds : List (String × Float)) :
    (Tree.compactMembers (bounds.map fun (name, x) => (name, .double x))).map String.toList =
      (bounds.map entry).map Entry.chars := by
  induction bounds with
  | nil => rfl
  | cons b bounds ih =>
    rw [List.map_cons, Tree.compactMembers, List.map_cons, ih, List.map_cons, List.map_cons]
    congr 1
    simp [entry, Entry.chars, Tree.compact]

/-- The text of an extent, character by character. -/
theorem toJson_toList (e : Extent) :
    e.toJson.toList = '\x7b' :: ([','].intercalate ((e.bounds.map entry).map Entry.chars) ++ ['\x7d']) := by
  rw [toJson, tree, Tree.compact, String.toList_append, String.toList_append, String.toList_intercalate, compactMembers_eq]
  rfl

theorem bounds_names (e : Extent) : (e.bounds.map Prod.fst).Sublist ["north", "south", "east", "west"] := by
  obtain ⟨north, south, east, west⟩ := e
  cases north <;> cases south <;> cases east <;> cases west <;> simp [bounds]

theorem isPlainKey_of_mem : ∀ name ∈ ["north", "south", "east", "west"], IsPlainKey name.toList := by
  simp [IsPlainKey]

/-- An extent as JSON is read back bound by bound. -/
theorem ofJson_toJson_eq (e : Extent) : ofJson e.toJson = .ok e.returned := by
  have names : (e.bounds.map entry).map Entry.name = e.bounds.map Prod.fst := by
    rw [List.map_map]
    rfl
  refine Shape.document_object ?_ ?_ (toJson_toList e) ?_
  · intro m hm
    obtain ⟨bound, hb, rfl⟩ := List.mem_map.1 hm
    have known := (bounds_names e).subset (List.mem_map_of_mem hb)
    exact ⟨isPlainKey_of_mem bound.1 known, known, fun s hs => read_doubleText _ hs.ends⟩
  · rw [names]
    exact (bounds_names e).nodup (by decide)
  · obtain ⟨north, south, east, west⟩ := e
    cases north <;> cases south <;> cases east <;> cases west <;> rfl

/-! ## Boxes -/

/-- An extent has a box exactly if all four bounds are finite. -/
theorem isSome_rectangle? (e : Extent) : e.rectangle?.isSome = ((e.north.filter Float.isFinite).isSome &&
    (e.south.filter Float.isFinite).isSome && (e.east.filter Float.isFinite).isSome && (e.west.filter Float.isFinite).isSome) := by
  unfold rectangle?
  cases e.north.filter Float.isFinite <;> cases e.south.filter Float.isFinite <;> cases e.east.filter Float.isFinite <;>
    cases e.west.filter Float.isFinite <;> rfl

/-- A bound that comes back is finite exactly if it was. -/
theorem isSome_filter_returned (b : Option Float) :
    ((b.bind Json.returned).filter Float.isFinite).isSome = (b.filter Float.isFinite).isSome := by
  cases b with
  | none => rfl
  | some x =>
    cases hx : x.isFinite with
    | false =>
      rw [Option.bind_some, returned_of_not_isFinite hx, Option.filter_none, Option.filter_some_neg (by rw [hx])]
    | true =>
      obtain ⟨y, hy, back⟩ := returned_of_isFinite hx
      rw [Option.bind_some, hy, Option.filter_some_pos back.isFinite, Option.filter_some_pos hx]
      rfl

/-- An extent comes back with a box if it had one. -/
theorem rectangle?_returned (e : Extent) : e.returned.rectangle? = none ↔ e.rectangle? = none := by
  rw [← Option.isNone_iff_eq_none, ← Option.isNone_iff_eq_none, ← Option.not_isSome, ← Option.not_isSome, isSome_rectangle?,
    isSome_rectangle?]
  simp only [returned, isSome_filter_returned]

/-! ## Stored extents -/

variable {x : Float} {precision : ℕ}

/-- The degrees kept of an angle within half a turn have a whole number of units of their last place, and not many. -/
theorem exists_isNearest_stored_le (hp : precision ≤ 13) (h1 : -halfTurn ≤ x) (h2 : x ≤ halfTurn) :
    (stored precision x).isFinite = true ∧ ∃ k : ℤ, |k| ≤ 225 * 10 ^ precision ∧ IsNearest (stored precision x) (k / 10 ^ precision) := by
  have hp' : precision ≤ 15 := by omega
  have hl := value_le_of_le h1
  rw [value_neg] at hl
  obtain ⟨k, hk, near⟩ := exists_isNearest_stored hp' (isNaN_of_le h2).1 hl (value_le_of_le h2)
  have finite := (isClose_decimal hp' (hk.trans (by norm_num)) near).isFinite
  have mono := isMonotone_stored hp'
  have low := value_le_of_le (mono.le h1)
  have high := value_le_of_le (mono.le h2)
  rw [value_stored_neg_halfTurn hp'] at low
  rw [value_stored_halfTurn hp'] at high
  have ten : (0 : ℚ) < 10 ^ precision := by positivity
  refine ⟨finite, k, ?_, near⟩
  by_contra large
  have large : (225 : ℚ) ≤ |(k : ℚ) / 10 ^ precision| := by
    rw [abs_div, abs_of_pos ten, le_div_iff₀ ten]
    exact_mod_cast (not_le.1 large).le
  have : (225 : ℚ) ≤ nearest |(k : ℚ) / 10 ^ precision| := le_nearest (by exact_mod_cast onGrid_intCast (n := 225) (by norm_num)) large
  rw [nearest_abs, ← near.value_of_isFinite finite] at this
  have : |value (stored precision x)| ≤ 180 := abs_le.2 ⟨low, high⟩
  linarith

/-- At up to thirteen places they are a short decimal number. -/
theorem isDecimal_stored (hp : precision ≤ 13) (h1 : -halfTurn ≤ x) (h2 : x ≤ halfTurn) :
    (stored precision x).isFinite = true ∧ IsDecimal (stored precision x) := by
  obtain ⟨finite, k, hk, near⟩ := exists_isNearest_stored_le hp h1 h2
  refine ⟨finite, ?_⟩
  rcases Nat.eq_zero_or_pos precision with rfl | pos
  · have zeroBehind : IsNearest (stored 0 x) ((10 * k : ℤ) / 10 ^ 1) := by
      convert near using 1
      push_cast
      ring
    refine ⟨10 * k, 1, ?_, le_rfl, by norm_num, zeroBehind⟩
    rw [abs_mul]
    norm_num at hk ⊢
    omega
  · refine ⟨k, precision, hk.trans ?_, pos, by omega, near⟩
    calc (225 : ℤ) * 10 ^ precision ≤ 225 * 10 ^ 13 := by gcongr; norm_num
      _ ≤ 2 ^ 52 := by norm_num

/-- A bound that was stored at up to thirteen places comes back. -/
theorem returned_stored (hp : precision ≤ 13) (h1 : -halfTurn ≤ x) (h2 : x ≤ halfTurn) :
    Json.returned (stored precision x) = some (stored precision x) := by
  obtain ⟨finite, short⟩ := isDecimal_stored hp h1 h2
  obtain ⟨y, hy, back⟩ := returned_of_isFinite finite
  rw [hy, back.eq_of_isDecimal short]

/-- What is stored at up to thirteen decimal places comes back as it was. -/
theorem returned_ofRectangle {r : Rectangle} (hp : precision ≤ 13) (hr : r.IsOnGlobe) :
    (ofRectangle r precision).returned = ofRectangle r precision := by
  obtain ⟨⟨n1, n2⟩, ⟨s1, s2⟩, ⟨e1, e2⟩, w1, w2⟩ := hr.within_half
  change Extent.mk (Json.returned (stored precision r.north)) (Json.returned (stored precision r.south))
    (Json.returned (stored precision r.east)) (Json.returned (stored precision r.west)) = _
  rw [returned_stored hp n1 n2, returned_stored hp s1 s2, returned_stored hp e1 e2, returned_stored hp w1 w2]
  rfl

/-! ## Results -/

/-- Every extent can be read back from its JSON form, with a box if it had one. Bounds that are absent or not finite come back absent, all
others come back close to what they were, and as they were if they are the doubles of short decimal numbers. So an extent that was stored
of a box on the globe at up to thirteen decimal places comes back as it was. -/
theorem ofJson_toJson (e : Extent) :
    ∃ e', ofJson e.toJson = .ok e' ∧ (e'.rectangle? = none ↔ e.rectangle? = none) ∧
      (∀ bound ∈ [Extent.north, Extent.south, Extent.east, Extent.west],
        (bound e = none → bound e' = none) ∧
          ∀ x, bound e = some x →
            (x.isFinite = false → bound e' = none) ∧
              (x.isFinite = true → ∃ y, bound e' = some y ∧ y.isFinite = true ∧
                |value y - value x| ≤ |value x| / 2 ^ 50 + 2 ^ (-1073 : ℤ) ∧ (IsDecimal x → y = x))) ∧
      ∀ (r : Rectangle) (precision : ℕ), r.IsOnGlobe → precision ≤ 13 → e = ofRectangle r precision → e' = e := by
  refine ⟨e.returned, ofJson_toJson_eq e, rectangle?_returned e, ?_, ?_⟩
  · have back (b : Option Float) : (b = none → b.bind Json.returned = none) ∧
        ∀ x, b = some x → (x.isFinite = false → b.bind Json.returned = none) ∧
          (x.isFinite = true → ∃ y, b.bind Json.returned = some y ∧ y.isFinite = true ∧
            |value y - value x| ≤ |value x| / 2 ^ 50 + 2 ^ (-1073 : ℤ) ∧ (IsDecimal x → y = x)) := by
      refine ⟨by rintro rfl; rfl, ?_⟩
      rintro x rfl
      refine ⟨returned_of_not_isFinite, fun hx => ?_⟩
      obtain ⟨y, hy, close⟩ := returned_of_isFinite hx
      exact ⟨y, hy, close.isFinite, close.abs_sub_le, close.eq_of_isDecimal⟩
    intro bound hb
    simp only [List.mem_cons, List.not_mem_nil, or_false] at hb
    obtain rfl | rfl | rfl | rfl := hb
    · exact back e.north
    · exact back e.south
    · exact back e.east
    · exact back e.west
  · rintro r precision hr hp rfl
    exact returned_ofRectangle hp hr

/-- The extent of a drag over the date line at the default precision comes back as it was. -/
theorem ofJson_toJson_default :
    let e := ofRectangle ⟨0.3, 0.2, -3.1, 3.1⟩ defaultPrecision
    ofJson e.toJson = .ok e := by
  intro e
  have on : Rectangle.IsOnGlobe ⟨0.3, 0.2, -3.1, 3.1⟩ := by constructor <;> decide +kernel
  obtain ⟨e', read, -, -, same⟩ := ofJson_toJson e
  rw [read, same _ defaultPrecision on (by decide) rfl]

/-- With more than thirteen places an extent may come back as another one: at each number of places that settings allow beyond that, the
extent of this box does. -/
theorem ofJson_toJson_moves :
    let r : Rectangle := ⟨0.2, 0.1, 1.8, 0⟩
    r.IsOnGlobe ∧ ∀ precision ∈ [14, 15], ({ precision } : Settings).validate = .ok () ∧
      ∃ e', ofJson (ofRectangle r precision).toJson = .ok e' ∧ (e' == ofRectangle r precision) = false := by
  intro r
  have differ : ∀ precision ∈ [14, 15], ((ofJson (ofRectangle r precision).toJson).toOption.any (· != ofRectangle r precision)) = true := by
    decide +kernel
  refine ⟨by constructor <;> decide +kernel, fun precision hp => ⟨?_, _, ofJson_toJson_eq _, ?_⟩⟩
  · simp only [List.mem_cons, List.not_mem_nil, or_false] at hp
    obtain rfl | rfl := hp <;> rfl
  · have : ((ofRectangle r precision).returned != ofRectangle r precision) = true := by
      have := differ precision hp
      rwa [ofJson_toJson_eq] at this
    rwa [bne, Bool.not_eq_true'] at this

end Extent

end GlobeDrag
