import GlobeDrag.Proofs.Tracker

/-!
# What a tracker remembers

Of all the calls that it has seen, a tracker remembers those of the drag in progress: the positions with finite coordinates since a drag
was last ended or dropped and since the anchor last changed. Its drag is what these positions make of their first anchor, its last box
is the last one that it gave for them, and from the beginning of a drag on it answers as a new tracker does.

Main statements: `Remembers.handle` and `remembers_after` (one call, and any calls), `Remembers.fresh` (from the beginning of a drag on) and
`after_remembers_recent`, which joins them.
-/

namespace GlobeDrag

open Binary64 (value beq_iff_number)

/-! ## Points that count as equal -/

/-- Doubles that count as equal stay so when they change places, and in a chain; points inherit it. -/
instance : PartialEquivBEq Point where
  symm {p q} h := by
    obtain ⟨h1, h2⟩ := Bool.and_eq_true_iff.1 h
    exact Bool.and_eq_true_iff.2 ⟨BEq.symm h1, BEq.symm h2⟩
  trans {p q r} h h' := by
    obtain ⟨h1, h2⟩ := Bool.and_eq_true_iff.1 h
    obtain ⟨h3, h4⟩ := Bool.and_eq_true_iff.1 h'
    exact Bool.and_eq_true_iff.2 ⟨BEq.trans h1 h3, BEq.trans h2 h4⟩

/-- A finite point counts as equal to itself. -/
theorem Point.beq_self {p : Point} (h : p.isFinite = true) : (p == p) = true := by
  obtain ⟨h1, h2⟩ := Rectangle.isFinite_point h
  have n1 := Binary64.isNaN_of_isFinite h1
  have n2 := Binary64.isNaN_of_isFinite h2
  exact Bool.and_eq_true_iff.2 ⟨(Binary64.beq_iff_value_eq n1 n1).2 rfl, (Binary64.beq_iff_value_eq n2 n2).2 rfl⟩

namespace Tracker

/-! ## Answers -/

/-- What a call gives back: the box of a position, or the last box of a drag that is ended. -/
def answer (t : Tracker) : Input → Option Rectangle
  | .update anchor current => (t.update anchor current).box
  | .finish => t.finish.box
  | .reset => none

/-- What each of a sequence of calls gives back. -/
def answers (t : Tracker) : List Input → List (Option Rectangle)
  | [] => []
  | i :: rest => t.answer i :: (t.handle i).answers rest

/-- A sequence of calls, each with what it gives back. -/
def transcript (t : Tracker) (inputs : List Input) : List (Input × Option Rectangle) :=
  inputs.zip (t.answers inputs)

variable {t : Tracker} {anchor current : Point}

theorem after_concat (t : Tracker) (inputs : List Input) (i : Input) : t.after (inputs ++ [i]) = (t.after inputs).handle i :=
  List.foldl_concat ..

theorem answers_concat (t : Tracker) (inputs : List Input) (i : Input) :
    t.answers (inputs ++ [i]) = t.answers inputs ++ [(t.after inputs).answer i] := by
  induction inputs generalizing t with
  | nil => rfl
  | cons j rest ih => exact congrArg (t.answer j :: ·) (ih (t.handle j))

theorem length_answers (t : Tracker) (inputs : List Input) : (t.answers inputs).length = inputs.length := by
  induction inputs generalizing t with
  | nil => rfl
  | cons i rest ih => exact congrArg (· + 1) (ih (t.handle i))

theorem transcript_concat (t : Tracker) (inputs : List Input) (i : Input) :
    t.transcript (inputs ++ [i]) = t.transcript inputs ++ [(i, (t.after inputs).answer i)] := by
  rw [transcript, answers_concat, List.zip_append (t.length_answers inputs).symm]
  rfl

/-! ## The calls of the drag in progress -/

/-- A position with finite coordinates, folded, and the box that a tracker gave for it. -/
structure Sample where
  anchor : Point
  current : Point
  box : Option Rectangle

/-- Whether two samples have anchors that count as equal. -/
def Sample.sharesAnchor (s s' : Sample) : Bool :=
  s.anchor == s'.anchor

/-- Whether a call brings a position. -/
def Input.isUpdate : Input → Bool
  | .update .. => true
  | _ => false

/-- The sample of a call that brings finite coordinates. -/
def sample? : Input × Option Rectangle → Option Sample
  | (.update anchor current, box) =>
    if anchor.isFinite && current.isFinite then some ⟨anchor.normalize, current.normalize, box⟩ else none
  | _ => none

/-- The samples since the last call that ended or dropped a drag. -/
def sinceEnd (calls : List (Input × Option Rectangle)) : List Sample :=
  (calls.rtakeWhile (·.1.isUpdate)).filterMap sample?

/-- The samples since the anchor last changed. -/
def sinceChange (samples : List Sample) : List Sample :=
  match samples.getLast? with
  | none => []
  | some last => samples.rtakeWhile last.sharesAnchor

/-- The samples of the drag in progress. -/
def recent (calls : List (Input × Option Rectangle)) : List Sample :=
  sinceChange (sinceEnd calls)

variable {calls : List (Input × Option Rectangle)} {samples : List Sample} {box : Option Rectangle} {s : Sample}

/-- A call that ends or drops the drag leaves no samples. -/
theorem recent_of_end {i : Input} (h : i.isUpdate = false) : recent (calls ++ [(i, box)]) = [] := by
  rw [recent, sinceEnd, List.rtakeWhile_concat, if_neg (by rw [h]; decide)]
  rfl

/-- An update adds its sample to those since the end. -/
theorem sinceEnd_update :
    sinceEnd (calls ++ [(.update anchor current, box)]) = sinceEnd calls ++ (sample? (.update anchor current, box)).toList := by
  have kept : (calls ++ [(Input.update anchor current, box)]).rtakeWhile (·.1.isUpdate) =
      calls.rtakeWhile (·.1.isUpdate) ++ [(.update anchor current, box)] := by
    rw [List.rtakeWhile_concat]
    rfl
  rw [sinceEnd, kept, List.filterMap_append, sinceEnd]
  cases h : sample? (.update anchor current, box) <;> simp [h]

/-- A position that is not finite adds no sample. -/
theorem recent_of_not_isFinite (h : (anchor.isFinite && current.isFinite) = false) :
    recent (calls ++ [(.update anchor current, box)]) = recent calls := by
  rw [recent, sinceEnd_update, sample?, h, if_neg (by decide), Option.toList_none, List.append_nil, recent]

/-- The samples since the anchor changed, with one more. -/
theorem sinceChange_concat (samples : List Sample) (s : Sample) :
    sinceChange (samples ++ [s]) = (samples ++ [s]).rtakeWhile s.sharesAnchor := by
  rw [sinceChange, List.getLast?_concat]

/-- The samples of a drag share their anchor. -/
theorem sharesAnchor_of_mem {s s' : Sample} (h : s ∈ sinceChange samples) (h' : s' ∈ sinceChange samples) :
    s.sharesAnchor s' = true := by
  induction samples using List.reverseRecOn with
  | nil => cases h
  | append_singleton l x _ =>
    rw [sinceChange_concat] at h h'
    have own : ∀ y ∈ (l ++ [x]).rtakeWhile x.sharesAnchor, x.sharesAnchor y = true := fun _ hy => List.mem_rtakeWhile_imp hy
    exact BEq.trans (BEq.symm (own s h)) (own s' h')

/-- Looking back from a further sample with the same anchor, one sees the drag in progress; with another anchor, nothing. -/
theorem rtakeWhile_sharesAnchor (samples : List Sample) (s : Sample) :
    samples.rtakeWhile s.sharesAnchor = if (sinceChange samples).all s.sharesAnchor then sinceChange samples else [] := by
  induction samples using List.reverseRecOn with
  | nil => rfl
  | append_singleton l x _ =>
    rw [sinceChange_concat]
    cases hx : s.sharesAnchor x with
    | true =>
      have same : s.sharesAnchor = x.sharesAnchor := funext fun y => BEq.congr_left hx
      rw [same, if_pos]
      rw [List.all_eq_true]
      intro y hy
      exact List.mem_rtakeWhile_imp hy
    | false =>
      rw [List.rtakeWhile_concat, if_neg (by rw [hx]; decide)]
      split
      · next hall =>
        rw [List.rtakeWhile_concat] at hall ⊢
        split at hall
        · rw [List.all_eq_true.1 hall x (List.mem_append_right _ (List.mem_singleton_self x))] at hx
          cases hx
        · next hxx => rw [if_neg hxx]
      · rfl

/-- A position with finite coordinates joins the drag in progress if it brings the same anchor, and begins a new one otherwise. -/
theorem recent_of_isFinite (ha : anchor.isFinite = true) (hc : current.isFinite = true) :
    recent (calls ++ [(.update anchor current, box)]) =
      (if (recent calls).all (Sample.sharesAnchor ⟨anchor.normalize, current.normalize, box⟩) then recent calls else []) ++
        [⟨anchor.normalize, current.normalize, box⟩] := by
  have self : (Sample.mk anchor.normalize current.normalize box).sharesAnchor ⟨anchor.normalize, current.normalize, box⟩ = true :=
    Point.beq_self (Drag.isFinite_normalize ha)
  rw [recent, sinceEnd_update, sample?, ha, hc, if_pos (by decide), Option.toList_some, sinceChange_concat,
    List.rtakeWhile_concat, if_pos self, rtakeWhile_sharesAnchor, recent]

/-! ## What the samples amount to -/

/-- The drag that samples make of the anchor of the first. -/
def dragOf (samples : List Sample) : Option Drag :=
  samples.head?.map fun first => (samples.map Sample.current).foldl Drag.step (.start first.anchor)

/-- The last box that was given for samples. -/
def lastBoxOf (samples : List Sample) : Option Rectangle :=
  (samples.filterMap Sample.box).getLast?

/-- The drag of one more sample is one step further. -/
theorem dragOf_concat (samples : List Sample) (s : Sample) :
    dragOf (samples ++ [s]) = some (((dragOf samples).getD (.start s.anchor)).step s.current) := by
  cases samples with
  | nil => rfl
  | cons first rest =>
    simp only [dragOf, List.cons_append, List.head?_cons, Option.map_some, Option.getD_some, List.map_cons, List.map_append,
      List.map_nil, List.foldl_cons, List.foldl_append, List.foldl_nil]

/-- The last box is that of the sample if it has one. -/
theorem lastBoxOf_concat (samples : List Sample) (s : Sample) :
    lastBoxOf (samples ++ [s]) = s.box.or (lastBoxOf samples) := by
  rw [lastBoxOf, List.filterMap_append, List.getLast?_append, lastBoxOf]
  cases h : s.box <;> simp [h]

/-- Steps do not move the anchor. -/
theorem anchor_foldl_step (d : Drag) (points : List Point) : (points.foldl Drag.step d).anchor = d.anchor := by
  induction points generalizing d with
  | nil => rfl
  | cons p rest ih => exact ih (d.step p)

/-- The drag of some samples has the anchor of one of them. -/
theorem exists_anchor_of_dragOf {d : Drag} (h : dragOf samples = some d) : ∃ s ∈ samples, d.anchor = s.anchor := by
  obtain ⟨first, hf, rfl⟩ := Option.map_eq_some_iff.1 h
  exact ⟨first, List.mem_of_mem_head? hf, anchor_foldl_step _ _⟩

/-- There is no drag exactly if there are no samples. -/
theorem dragOf_eq_none_iff : dragOf samples = none ↔ samples = [] := by
  rw [dragOf, Option.map_eq_none_iff, List.head?_eq_none_iff]

/-! ## Calls and samples -/

/-- A tracker remembers what samples amount to, and no more. -/
structure Remembers (t : Tracker) (samples : List Sample) : Prop where
  drag_eq : t.drag = dragOf samples
  lastBox_eq : t.lastBox = lastBoxOf samples

/-- What a tracker is after a position with finite coordinates. -/
theorem tracker_update (ha : anchor.isFinite = true) (hc : current.isFinite = true) :
    (t.update anchor current).tracker =
      { epsilon := t.epsilon, drag := some ((t.facing anchor.normalize).1.step current.normalize),
        lastBox := (t.update anchor current).box.or (t.facing anchor.normalize).2.1 } := by
  rw [update, if_neg (by rw [ha, hc]; decide)]
  dsimp only
  split <;> rfl

/-- Two trackers with one angle that face an anchor alike take in a position alike. -/
theorem update_congr {u : Tracker} (ha : anchor.isFinite = true) (hc : current.isFinite = true) (hε : t.epsilon = u.epsilon)
    (hd : (t.facing anchor.normalize).1 = (u.facing anchor.normalize).1)
    (hk : (t.facing anchor.normalize).2.1 = (u.facing anchor.normalize).2.1) :
    (t.update anchor current).tracker = (u.update anchor current).tracker ∧
      (t.update anchor current).box = (u.update anchor current).box := by
  have hb : (t.update anchor current).box = (u.update anchor current).box := by
    refine Option.ext fun box => ?_
    rw [box_update ha hc, box_update ha hc, hε, hd]
  rw [tracker_update ha hc, tracker_update ha hc, hb, hε, hd, hk]
  exact ⟨rfl, rfl⟩

/-- The drag after a position has the anchor of this position, up to the sign of a zero. -/
theorem anchor_update (ha : anchor.isFinite = true) (hc : current.isFinite = true) {d : Drag}
    (hd : (t.update anchor current).tracker.drag = some d) : (d.anchor == anchor.normalize) = true := by
  rw [drag_update ha hc, Option.some.injEq] at hd
  rw [← hd]
  rcases t.facing_eq anchor.normalize with ⟨d', -, he, hf⟩ | ⟨-, hf⟩ <;> rw [hf]
  · exact he
  · exact Point.beq_self (Drag.isFinite_normalize ha)

/-- The box of a consistent tracker begins at the anchor of a drag, which is that of the position up to the signs of zeros. -/
theorem Consistent.anchored_box (h : t.Consistent) {box : Rectangle} (hb : (t.update anchor current).box = some box) :
    ∃ d : Drag, d.Consistent ∧
      (value d.anchor.latitude = value anchor.normalize.latitude ∧ value d.anchor.longitude = value anchor.normalize.longitude) ∧
      ((t.update anchor current).tracker.crossing = true → DateLine.Across d.anchor.longitude current.normalize.longitude) ∧
      box = .spanning d.anchor current.normalize (t.update anchor current).tracker.crossing t.epsilon := by
  obtain ⟨ha, hc⟩ := isFinite_of_box hb
  obtain ⟨d, hd, hdrag, across, hbox⟩ := h.across_box hb
  obtain ⟨lat, lon⟩ := Bool.and_eq_true_iff.1 (anchor_update ha hc hdrag)
  exact ⟨d, hd, ⟨(beq_iff_number.1 lat).2.2, (beq_iff_number.1 lon).2.2⟩, across, hbox⟩

/-- A tracker faces an anchor with the samples that share it. -/
theorem Remembers.facing (h : t.Remembers samples) (share : ∀ s ∈ samples, ∀ s' ∈ samples, s.sharesAnchor s' = true) (s : Sample) :
    (t.facing s.anchor).1 = (dragOf (if samples.all s.sharesAnchor then samples else [])).getD (.start s.anchor) ∧
      (t.facing s.anchor).2.1 = lastBoxOf (if samples.all s.sharesAnchor then samples else []) := by
  rw [Tracker.facing, h.drag_eq, h.lastBox_eq]
  cases hd : dragOf samples with
  | none =>
    rw [dragOf_eq_none_iff.1 hd]
    exact ⟨rfl, rfl⟩
  | some d =>
    obtain ⟨s', hs', ha⟩ := exists_anchor_of_dragOf hd
    dsimp only
    rw [ha]
    cases he : s'.anchor == s.anchor with
    | true =>
      have hall : samples.all s.sharesAnchor = true := by
        rw [List.all_eq_true]
        intro x hx
        exact BEq.trans (BEq.symm he) (share s' hs' x hx)
      rw [if_pos hall, hd]
      exact ⟨rfl, rfl⟩
    | false =>
      have hall : ¬samples.all s.sharesAnchor = true := by
        intro hall
        rw [BEq.symm (List.all_eq_true.1 hall s' hs')] at he
        cases he
      rw [if_neg hall]
      exact ⟨rfl, rfl⟩

/-- Any call keeps a tracker to the samples of the drag in progress. -/
theorem Remembers.handle (h : t.Remembers (recent calls)) (i : Input) :
    (t.handle i).Remembers (recent (calls ++ [(i, t.answer i)])) := by
  cases i with
  | update anchor current =>
    change (t.update anchor current).tracker.Remembers (recent (calls ++ [(.update anchor current, (t.update anchor current).box)]))
    by_cases hf : anchor.isFinite = true ∧ current.isFinite = true
    · obtain ⟨h1, h2⟩ := h.facing (fun _ hs _ hs' => sharesAnchor_of_mem hs hs')
        ⟨anchor.normalize, current.normalize, (t.update anchor current).box⟩
      rw [recent_of_isFinite hf.1 hf.2]
      constructor
      · rw [drag_update hf.1 hf.2, h1, dragOf_concat]
      · rw [tracker_update hf.1 hf.2, h2, lastBoxOf_concat]
    · have hn : (anchor.isFinite && current.isFinite) = false := by rwa [← Bool.not_eq_true, Bool.and_eq_true]
      rw [recent_of_not_isFinite hn, update_of_not_isFinite hn]
      exact h
  | finish =>
    rw [recent_of_end rfl]
    exact ⟨rfl, rfl⟩
  | reset =>
    rw [recent_of_end rfl]
    exact ⟨rfl, rfl⟩

/-- After any calls a new tracker remembers the samples of the drag in progress, and no more. -/
theorem remembers_after (epsilon : Float) (inputs : List Input) :
    (after { epsilon } inputs).Remembers (recent (transcript { epsilon } inputs)) := by
  induction inputs using List.reverseRecOn with
  | nil => exact ⟨rfl, rfl⟩
  | append_singleton l i ih =>
    rw [after_concat, transcript_concat]
    exact ih.handle i

theorem epsilon_after (epsilon : Float) (inputs : List Input) : (after { epsilon } inputs).epsilon = epsilon :=
  ((consistent_of_drag_eq_none (t := { epsilon }) rfl).after inputs).2

/-! ## The beginning of a drag -/

/-- The calls to come begin a drag: there is none in progress, or the next call brings another anchor. -/
def Opens (samples : List Sample) (inputs : List Input) : Prop :=
  samples = [] ∨ ∃ anchor current rest, inputs = .update anchor current :: rest ∧ anchor.isFinite = true ∧
    current.isFinite = true ∧ ∀ s ∈ samples, (s.anchor == anchor.normalize) = false

/-- From the beginning of a drag on, a tracker answers as a new one does, and becomes what the new one becomes. -/
theorem Remembers.fresh (h : t.Remembers samples) {inputs : List Input} (opens : Opens samples inputs) :
    t.answers inputs = answers { epsilon := t.epsilon } inputs ∧ t.after inputs = after { epsilon := t.epsilon } inputs := by
  rcases opens with rfl | ⟨anchor, current, rest, rfl, ha, hc, other⟩
  · have : t = { epsilon := t.epsilon } := by
      obtain ⟨epsilon, drag, lastBox⟩ := t
      obtain ⟨rfl, rfl⟩ := h
      rfl
    exact ⟨congrArg (·.answers inputs) this, congrArg (·.after inputs) this⟩
  · have new : (t.facing anchor.normalize).1 = .start anchor.normalize ∧ (t.facing anchor.normalize).2.1 = none := by
      rw [Tracker.facing, h.drag_eq]
      cases hd : dragOf samples with
      | none =>
        refine ⟨rfl, ?_⟩
        rw [h.lastBox_eq, dragOf_eq_none_iff.1 hd]
        rfl
      | some d =>
        obtain ⟨s, hs, he⟩ := exists_anchor_of_dragOf hd
        dsimp only
        rw [he, other s hs]
        exact ⟨rfl, rfl⟩
    obtain ⟨h1, h2⟩ := update_congr (t := t) (u := { epsilon := t.epsilon }) ha hc rfl new.1 new.2
    constructor
    · change (t.update anchor current).box :: (t.update anchor current).tracker.answers rest = _
      rw [h1, h2]
      rfl
    · change (t.update anchor current).tracker.after rest = _
      rw [h1]
      rfl

/-- After any calls, the drag of a tracker is what the samples of the drag in progress make of their first anchor, its last box, which
ending the drag gives back, is the last one that it gave for them, and from the beginning of a drag on it does as a new tracker
with the same angle does. -/
theorem after_remembers_recent (epsilon : Float) (inputs : List Input) :
    let t := after { epsilon } inputs
    let samples := recent (transcript { epsilon } inputs)
    t.drag = samples.head?.map (fun first => (samples.map Sample.current).foldl Drag.step (.start first.anchor)) ∧
      t.lastBox = (samples.filterMap Sample.box).getLast? ∧
      t.finish.box = (samples.filterMap Sample.box).getLast? ∧
      ∀ rest, Opens samples rest →
        t.answers rest = answers { epsilon } rest ∧ t.after rest = after { epsilon } rest := by
  intro t samples
  have h := remembers_after epsilon inputs
  refine ⟨h.drag_eq, h.lastBox_eq, h.lastBox_eq, ?_⟩
  intro rest opens
  have hf := h.fresh opens
  rwa [epsilon_after] at hf

/-- A second drag, from an anchor on the other side of the globe, is answered as if there had been no first one. -/
theorem after_remembers_recent_second :
    let first := [Input.update ⟨0, 3⟩ ⟨0.1, 3.1⟩, .update ⟨0, 3⟩ ⟨0.1, -3.1⟩]
    let second := [Input.update ⟨0, -1⟩ ⟨0.2, -2⟩, .finish]
    Opens (recent (transcript { epsilon := defaultEpsilon } first)) second ∧
      (after { epsilon := defaultEpsilon } first).answers second = answers { epsilon := defaultEpsilon } second := by
  have opens : Opens (recent (transcript { epsilon := defaultEpsilon } [.update ⟨0, 3⟩ ⟨0.1, 3.1⟩, .update ⟨0, 3⟩ ⟨0.1, -3.1⟩]))
      [.update ⟨0, -1⟩ ⟨0.2, -2⟩, .finish] := by
    refine Or.inr ⟨⟨0, -1⟩, ⟨0.2, -2⟩, [.finish], rfl, by decide, by decide, ?_⟩
    have all : (recent (transcript { epsilon := defaultEpsilon } [.update ⟨0, 3⟩ ⟨0.1, 3.1⟩, .update ⟨0, 3⟩ ⟨0.1, -3.1⟩])).all
        (fun s => !(s.anchor == Point.normalize ⟨0, -1⟩)) = true := by decide +kernel
    intro s hs
    have := List.all_eq_true.1 all s hs
    rwa [Bool.not_eq_true'] at this
  exact ⟨opens, ((after_remembers_recent defaultEpsilon _).2.2.2 _ opens).1⟩

end Tracker

end GlobeDrag
