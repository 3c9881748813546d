import GlobeDrag.Proofs.Json.Recast
import GlobeDrag.Proofs.Json.Tree
import GlobeDrag.Trace

/-!
# Only the fields of a record are read

A text of a trace or of an extent may be written otherwise without being read as something else: what counts is the values of the fields.
The positions inside of a trace have the same freedom.

Main statement: `ofJson_eq_of_recast`.
-/

namespace GlobeDrag

open Json (Format Freedom Recast Shape Value)
open Json.Shape (FieldsDenote HasView Permits setting)
open Relation (ReflTransGen)

/-! ## Extents -/

namespace Extent

/-- A bound that is `null` may be left out. -/
def freedom : Freedom where
  known := ["north", "south", "east", "west"]
  isIdle _ v := v = .null
  isAlike _ _ _ := False

/-- The shape of an extent permits its freedom. -/
theorem permits_shape : shape.Permits (setting (Value.optional? Value.double?)) freedom where
  unknown _ := Shape.field?_uniform_eq_none
  idle {a b name v} idle hc := by
    obtain rfl : v = .null := idle
    rcases Shape.change_uniform hc with rfl | ⟨x, hx, untaken, rfl⟩
    · rfl
    · obtain rfl : none = x := Option.some.inj hx
      have joined : ∀ other, (((name, none) :: a).lookup other).join = (a.lookup other).join := by
        intro other
        by_cases h : other = name
        · rw [h, List.lookup_cons_self, untaken]
          rfl
        · rw [List.lookup_cons, beq_false_of_ne h]
      change Except.ok (Extent.mk _ _ _ _) = Except.ok (Extent.mk _ _ _ _)
      simp only [joined]
  alike h := h.elim

end Extent

/-! ## Traces -/

/-- A position must have both its numbers. -/
def TracePoint.freedom : Freedom where
  known := ["lat", "lon"]
  isIdle _ _ := False
  isAlike _ _ _ := False

/-- The shape of a position permits its freedom. -/
theorem TracePoint.permits_shape : shape.Permits (setting Value.double?) freedom where
  unknown _ := Shape.field?_uniform_eq_none
  idle h := h.elim
  alike h := h.elim

/-- The position that a value denotes. -/
def TracePoint.denote : Value → Option TracePoint :=
  shape.denote (setting Value.double?)

/-- Positions are read as they denote. -/
theorem TracePoint.denotes_format : shape.format.Denotes denote :=
  Shape.denotes_format (Shape.fieldsDenote_uniform Format.denotes_double)

/-- A position that is written otherwise is read as before. -/
theorem TracePoint.denote_recast {v w : Value} {p : TracePoint} (recast : Recast freedom v w) (h : denote v = some p) :
    denote w = some p :=
  Shape.hasView_uniform.denote_recast permits_shape recast h

/-- A position that is written otherwise, or a null, denotes the same. -/
theorem TracePoint.optional?_recast {v w : Value} {p : Option TracePoint} (recast : Recast freedom v w)
    (h : Value.optional? denote v = some p) : Value.optional? denote w = some p := by
  have position : ∃ q, denote v = some q ∧ some q = p := by
    cases recast <;> exact Option.map_eq_some_iff.1 h
  obtain ⟨q, hv, rfl⟩ := position
  have hw := denote_recast recast hv
  cases recast <;> exact Option.map_eq_some_iff.2 ⟨q, hw, rfl⟩

namespace Trace

/-- The anchor and each of the moves may be written otherwise. -/
inductive IsAlike : String → Value → Value → Prop
  | anchor {v w : Value} (recast : Recast TracePoint.freedom v w) : IsAlike "anchor" v w
  | move {before after : List Value} {v w : Value} (recast : Recast TracePoint.freedom v w) :
      IsAlike "moves" (.list (before ++ v :: after)) (.list (before ++ w :: after))

/-- Moves may be left out if there are none. -/
def freedom : Freedom where
  known := ["anchor", "moves"]
  isIdle name v := name = "moves" ∧ v = .list []
  isAlike := IsAlike

/-- The moves that a value denotes. -/
def movesOf : Value → Option (List (Option TracePoint)) :=
  Value.list? (Value.optional? TracePoint.denote)

/-- One move that is written otherwise leaves the moves the same. -/
theorem movesOf_recast {before after : List Value} {v w : Value} {ms : List (Option TracePoint)}
    (recast : Recast TracePoint.freedom v w) (h : movesOf (.list (before ++ v :: after)) = some ms) :
    movesOf (.list (before ++ w :: after)) = some ms := by
  rw [movesOf, Value.list?, List.mapM_append] at h ⊢
  obtain ⟨first, hfirst, h⟩ := Option.bind_eq_some_iff.1 h
  obtain ⟨rest, hrest, h⟩ := Option.bind_eq_some_iff.1 h
  rw [List.mapM_cons] at hrest
  obtain ⟨p, hp, hrest⟩ := Option.bind_eq_some_iff.1 hrest
  rw [hfirst, List.mapM_cons, TracePoint.optional?_recast recast hp]
  change (_ >>= fun ps => some (p :: ps)) >>= (fun rest => some (first ++ rest)) = _
  exact Option.bind_eq_some_iff.2 ⟨rest, hrest, h⟩

/-- What the fields of a trace denote. -/
def meaning (name : String) (v : Value) : Option (Draft → Draft) :=
  if name = "anchor" then (TracePoint.denote v).map fun p d => { d with anchor := some p }
  else (movesOf v).map fun ms d => { d with moves := some ms }

/-- What the fields of a draft hold. -/
def view (d : Draft) (name : String) : Option (TracePoint ⊕ List (Option TracePoint)) :=
  if name = "anchor" then d.anchor.map .inl
  else if name = "moves" then d.moves.map .inr
  else none

/-- The fields of a trace denote an anchor and moves. -/
theorem fieldsDenote_shape : shape.FieldsDenote meaning := by
  intro f hf
  rcases List.mem_pair.1 hf with rfl | rfl
  · exact TracePoint.denotes_format.map fun p (d : Draft) => { d with anchor := some p }
  · exact TracePoint.denotes_format.optional.list.map fun ms (d : Draft) => { d with moves := some ms }

/-- A draft of a trace is seen by both names. -/
theorem hasView_shape : shape.HasView meaning view where
  isTaken_eq f hf d := by
    rcases List.mem_pair.1 hf with rfl | rfl
    · exact (Option.isSome_map ..).symm
    · exact (Option.isSome_map ..).symm
  view_change f hf v g hg := by
    rcases List.mem_pair.1 hf with rfl | rfl
    · obtain ⟨p, -, rfl⟩ := Option.map_eq_some_iff.1 hg
      refine ⟨.inl p, fun d => funext fun other => ?_⟩
      by_cases h : other = "anchor"
      · rw [h, Function.update_self]
        rfl
      · rw [Function.update_of_ne h, view, if_neg h, view, if_neg h]
    · obtain ⟨ms, -, rfl⟩ := Option.map_eq_some_iff.1 hg
      refine ⟨.inr ms, fun d => funext fun other => ?_⟩
      by_cases h : other = "moves"
      · rw [h, Function.update_self]
        rfl
      · rw [Function.update_of_ne h, view, view, if_neg h, if_neg h]
  build_eq a b hab := by
    have anchor : a.anchor = b.anchor := Option.map_injective Sum.inl_injective (congrFun hab "anchor")
    have moves : a.moves = b.moves := Option.map_injective Sum.inr_injective (congrFun hab "moves")
    obtain ⟨_, _⟩ := a
    obtain rfl : _ = _ := anchor
    obtain rfl : _ = _ := moves
    rfl

theorem permits_shape : shape.Permits meaning freedom where
  unknown _ h := Shape.field?_eq_none h
  idle {a b name v} idle hc := by
    obtain ⟨rfl, rfl⟩ := idle
    have member : (if a.moves.isSome then none else some { a with moves := some [] }) = some b := hc
    split at member
    · cases member
    · next untaken =>
      cases member
      obtain ⟨anchor, moves⟩ := a
      obtain rfl : moves = none := Option.not_isSome_iff_eq_none.1 untaken
      cases anchor <;> rfl
  alike {name v w g} alike hg := by
    cases alike with
    | anchor recast =>
      obtain ⟨p, hp, rfl⟩ := Option.map_eq_some_iff.1 hg
      exact Option.map_eq_some_iff.2 ⟨p, TracePoint.denote_recast recast hp, rfl⟩
    | move recast =>
      obtain ⟨ms, hms, rfl⟩ := Option.map_eq_some_iff.1 hg
      exact Option.map_eq_some_iff.2 ⟨ms, movesOf_recast recast hms, rfl⟩

end Trace

/-- A trace or an extent is read as before, however the text is changed: blanks between the tokens, the members in another order, more members
of unknown names with any values, no moves instead of an empty list of them, no bound instead of one that is null, and for a trace the same at
each of its positions. -/
theorem ofJson_eq_of_recast :
    (∀ {v w : Value} {s t : String} {x : Trace}, ReflTransGen (Recast Trace.freedom) v w → v.IsText s → w.IsText t →
      Trace.ofJson s = .ok x → Trace.ofJson t = .ok x) ∧
    ∀ {v w : Value} {s t : String} {x : Extent}, ReflTransGen (Recast Extent.freedom) v w → v.IsText s → w.IsText t →
      Extent.ofJson s = .ok x → Extent.ofJson t = .ok x :=
  ⟨fun recast hs ht hx => Trace.hasView_shape.document_recast Trace.permits_shape Trace.fieldsDenote_shape recast hs ht hx,
    fun recast hs ht hx => Shape.hasView_uniform.document_recast Extent.permits_shape
      (Shape.fieldsDenote_uniform Format.denotes_double.optional) recast hs ht hx⟩

/-! ## A trace and an extent written otherwise -/

section samples

open Json (Piece IsPlainKey)

namespace Samples

/-- A quote and a closing brace. -/
def quoteAndBrace : List Piece :=
  [.short '"' '"' rfl, .plain '\x7d' (by decide)]

/-- A latitude of ten degrees. -/
def latitude : List Piece × Value :=
  (Json.plainKey ['l', 'a', 't'] (by simp [IsPlainKey]), .number (.ofNat 10))

/-- A longitude of twenty degrees. -/
def longitude : List Piece × Value :=
  (Json.plainKey ['l', 'o', 'n'] (by simp [IsPlainKey]), .number (.ofNat 20))

/-- A member that no record knows, with quotes and braces inside of its strings. -/
def stray : List Piece × Value :=
  (quoteAndBrace, .list [.object [(quoteAndBrace, .string quoteAndBrace)], .null])

/-- The name of the anchor. -/
def anchorKey : List Piece :=
  Json.plainKey ['a', 'n', 'c', 'h', 'o', 'r'] (by simp [IsPlainKey])

/-- An empty list of moves. -/
def noMoves : List Piece × Value :=
  (Json.plainKey ['m', 'o', 'v', 'e', 's'] (by simp [IsPlainKey]), .list [])

/-- A northern bound. -/
def north : List Piece × Value :=
  (Json.plainKey ['n', 'o', 'r', 't', 'h'] (by simp [IsPlainKey]), .number (.ofNat 10))

/-- A southern bound left open. -/
def noSouth : List Piece × Value :=
  (Json.plainKey ['s', 'o', 'u', 't', 'h'] (by simp [IsPlainKey]), .null)

/-- A trace without moves. -/
def trace : Value := .object [(anchorKey, .object [latitude, longitude]), noMoves]

/-- The trace with two members more, one of them in the anchor, whose members change places, and without its empty list of moves. -/
def traceOtherwise : Value := .object [stray, (anchorKey, .object [longitude, stray, latitude])]

/-- An extent with one bound. -/
def extent : Value := .object [noSouth, north]

/-- The extent with one member more and without the bound that is null. -/
def extentOtherwise : Value := .object [north, stray]

/-- The trace is recast as it is written otherwise. -/
theorem recast_trace : ReflTransGen (Recast Trace.freedom) trace traceOtherwise := by
  have left : Recast Trace.freedom trace (.object [(anchorKey, .object [latitude, longitude])]) :=
    @Recast.leaveOut Trace.freedom [(anchorKey, .object [latitude, longitude])] [] noMoves.1 (.list []) "moves" (by decide) ⟨rfl, rfl⟩
  have swapped : Recast TracePoint.freedom (.object [latitude, longitude]) (.object [longitude, latitude]) :=
    .permute (.swap longitude latitude [])
  have inserted : Recast TracePoint.freedom (.object [longitude, latitude]) (.object [longitude, stray, latitude]) :=
    @Recast.insert TracePoint.freedom [longitude] [latitude] stray.1 stray.2 "\"\x7d" (by decide) (by decide)
  have anchor : ∀ {v w : Value}, Recast TracePoint.freedom v w →
      Recast Trace.freedom (.object [(anchorKey, v)]) (.object [(anchorKey, w)]) := fun {v w} h =>
    @Recast.within Trace.freedom [] [] anchorKey v w "anchor" (by decide) (.anchor h)
  have more : Recast Trace.freedom (.object [(anchorKey, .object [longitude, stray, latitude])]) traceOtherwise :=
    @Recast.insert Trace.freedom [] [(anchorKey, .object [longitude, stray, latitude])] stray.1 stray.2 "\"\x7d" (by decide) (by decide)
  exact (((ReflTransGen.single left).tail (anchor swapped)).tail (anchor inserted)).tail more

/-- So is the extent. -/
theorem recast_extent : ReflTransGen (Recast Extent.freedom) extent extentOtherwise := by
  have left : Recast Extent.freedom extent (.object [north]) :=
    @Recast.leaveOut Extent.freedom [] [north] noSouth.1 .null "south" (by decide) rfl
  have more : Recast Extent.freedom (.object [north]) extentOtherwise :=
    @Recast.insert Extent.freedom [north] [] stray.1 stray.2 "\"\x7d" (by decide) (by decide)
  exact (ReflTransGen.single left).tail more

end Samples

open Samples

theorem ofJson_eq_of_recast_samples :
    (∃ x, ReflTransGen (Recast Trace.freedom) trace traceOtherwise ∧ trace.IsText (trace.spread []) ∧
      traceOtherwise.IsText (traceOtherwise.spread [' ']) ∧ Trace.ofJson (trace.spread []) = .ok x ∧
      Trace.ofJson (traceOtherwise.spread [' ']) = .ok x) ∧
    ∃ x, ReflTransGen (Recast Extent.freedom) extent extentOtherwise ∧ extent.IsText (extent.spread []) ∧
      extentOtherwise.IsText (extentOtherwise.spread [' ']) ∧ Extent.ofJson (extent.spread []) = .ok x ∧
      Extent.ofJson (extentOtherwise.spread [' ']) = .ok x := by
  have compact : Json.IsBlank [] := nofun
  have spaced : Json.IsBlank [' '] := List.forall_mem_singleton.2 rfl
  have traceIsRead : (Trace.ofJson (trace.spread [])).isOk = true := by decide +kernel
  have extentIsRead : (Extent.ofJson (extent.spread [])).isOk = true := by decide +kernel
  constructor
  · cases read : Trace.ofJson (trace.spread []) with
    | error e =>
      rw [read] at traceIsRead
      cases traceIsRead
    | ok x =>
      exact ⟨x, recast_trace, trace.isText_spread compact, traceOtherwise.isText_spread spaced, rfl,
        ofJson_eq_of_recast.1 recast_trace (trace.isText_spread compact) (traceOtherwise.isText_spread spaced) read⟩
  · cases read : Extent.ofJson (extent.spread []) with
    | error e =>
      rw [read] at extentIsRead
      cases extentIsRead
    | ok x =>
      exact ⟨x, recast_extent, extent.isText_spread compact, extentOtherwise.isText_spread spaced, rfl,
        ofJson_eq_of_recast.2 recast_extent (extent.isText_spread compact) (extentOtherwise.isText_spread spaced) read⟩

end samples

end GlobeDrag
