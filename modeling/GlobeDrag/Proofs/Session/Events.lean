import GlobeDrag.Proofs.Session.Lifecycle

/-!
# What is told of a session

Whoever draws is told of drags one after the other: each begins, shows boxes, and is ended or cancelled before the next. What is told,
together with the restarts, decides the phase. After the end of a drag a session is silent and does not change until it is restarted.

Main statements: `outcome` (all that an operation can come to), `told_mem` (the language of the events), `phase_after`,
`phase_eq_dragging_iff` and `after_ended`; `told_follows_lifecycle` joins them.
-/

namespace GlobeDrag

open scoped Computability

/-- The kinds of events. -/
inductive Event.Kind where
  | begun
  | drawn
  | ended
  | cancelled
deriving DecidableEq

/-- The kind of an event. -/
def Event.kind : Event → Kind
  | begun _ => .begun
  | drawn .. => .drawn
  | ended _ => .ended
  | cancelled => .cancelled

namespace Session

/-! ## What an operation can come to -/

/-- The extent that an answer holds. -/
def Answer.extent? : Answer → Option Extent
  | .released extent => extent
  | _ => none

/-- What an operation on a session can come to: five ways in which the phase may change or something is told, and silence. -/
inductive Outcome (s : Session) (i : Input) (st : Step Answer) : Prop where
  /-- A press began a drag. -/
  | began (anchor : Point) (before : s.phase = .armed) (after : st.session.phase = .dragging anchor)
      (events : st.events = [.begun anchor]) (answer : st.answer = .pressed true)
  /-- A move gave a box to draw. -/
  | drew (anchor : Point) (box : Rectangle) (before : s.phase = .dragging anchor) (after : st.session.phase = .dragging anchor)
      (events : st.events = [.drawn box st.session.extent]) (answer : st.answer = .moved (some box))
      (drawable : st.session.extent.isDrawable = true)
  /-- A release ended the drag. -/
  | ended (anchor : Point) (before : s.phase = .dragging anchor) (after : st.session.phase = .committed)
      (extent : st.session.extent = s.extent) (events : st.events = [.ended s.extent])
      (answer : st.answer = .released (some s.extent))
  /-- The drag was given up. -/
  | cancelled (anchor : Point) (before : s.phase = .dragging anchor) (after : st.session.phase = .armed)
      (events : st.events = [.cancelled]) (answer : st.answer = .done)
  /-- A restart outside of a drag. -/
  | rearmed (input : i = .restart) (before : ∀ anchor, s.phase ≠ .dragging anchor) (after : st.session.phase = .armed)
      (events : st.events = []) (answer : st.answer = .done)
  /-- The phase stays, and nothing is told. -/
  | silent (input : i ≠ .restart) (after : st.session.phase = s.phase) (events : st.events = [])
      (pressed : st.answer ≠ .pressed true) (released : ∀ extent, st.answer ≠ .released (some extent))
      (moved : ∀ box, st.answer = .moved (some box) → st.session.extent.isDrawable = false)

variable {s : Session} {settings : Settings}

/-- An answer that holds nothing: no drag began, there is no box, and no extent is given out. -/
def Answer.isVoid : Answer → Bool
  | .pressed began => !began
  | .moved box => box.isNone
  | .released extent => extent.isNone
  | .done => true

/-- An operation with a void answer that keeps the phase and tells nothing is silent. -/
theorem Outcome.of_isVoid {i : Input} {st : Step Answer} (input : i ≠ .restart) (after : st.session.phase = s.phase)
    (events : st.events = []) (void : st.answer.isVoid = true) : Outcome s i st := by
  refine .silent input after events ?_ ?_ ?_
  · intro h
    rw [h] at void
    cases void
  · intro extent h
    rw [h] at void
    cases void
  · intro box h
    rw [h] at void
    cases void

/-- What a press can lead to. -/
theorem outcome_press (s : Session) (point : Option Point) : Outcome s (.press point) (s.handle (.press point)) := by
  change Outcome s (.press point) ((s.press point).map .pressed)
  have input : Input.press point ≠ .restart := by simp
  cases hs : s.phase with
  | armed =>
    cases hp : point.filter Point.isFinite with
    | none =>
      simp only [press, hs, hp]
      exact .of_isVoid input rfl rfl rfl
    | some anchor =>
      simp only [press, hs, hp]
      exact .began anchor hs rfl rfl rfl
  | dragging anchor =>
    simp only [press, hs]
    exact .of_isVoid input rfl rfl rfl
  | committed =>
    simp only [press, hs]
    exact .of_isVoid input rfl rfl rfl

/-- What a move can lead to. -/
theorem outcome_move (s : Session) (point : Option Point) : Outcome s (.move point) (s.handle (.move point)) := by
  change Outcome s (.move point) ((s.move point).map .moved)
  have input : Input.move point ≠ .restart := by simp
  cases hs : s.phase with
  | armed =>
    simp only [move, hs]
    exact .of_isVoid input rfl rfl rfl
  | committed =>
    simp only [move, hs]
    exact .of_isVoid input rfl rfl rfl
  | dragging anchor =>
    cases point with
    | none =>
      simp only [move, hs]
      exact .of_isVoid input rfl rfl rfl
    | some current =>
      cases hb : (s.tracker.update anchor current).box with
      | none =>
        simp only [move, hs, hb]
        exact .of_isVoid input hs.symm rfl rfl
      | some box =>
        simp only [move, hs, hb]
        cases hd : (Extent.ofRectangle box s.settings.precision).isDrawable with
        | true => exact .drew anchor box hs rfl rfl rfl hd
        | false => exact .silent input hs.symm rfl (by simp [Step.map]) (by simp [Step.map]) fun _ _ => hd

/-- What an operation comes to. -/
theorem outcome (s : Session) (i : Input) : Outcome s i (s.handle i) := by
  cases i with
  | press point => exact outcome_press s point
  | move point => exact outcome_move s point
  | release =>
    change Outcome s .release (s.release.map .released)
    cases hs : s.phase with
    | armed =>
      simp only [release, hs]
      exact .of_isVoid (by simp) rfl rfl rfl
    | dragging anchor =>
      simp only [release, hs]
      exact .ended anchor hs rfl rfl rfl rfl
    | committed =>
      simp only [release, hs]
      exact .of_isVoid (by simp) rfl rfl rfl
  | cancel =>
    change Outcome s .cancel (s.cancel.map fun _ => .done)
    cases hs : s.phase with
    | armed =>
      simp only [Session.cancel, hs]
      exact .of_isVoid (by simp) rfl rfl rfl
    | dragging anchor =>
      simp only [Session.cancel, hs]
      exact .cancelled anchor hs rfl rfl rfl
    | committed =>
      simp only [Session.cancel, hs]
      exact .of_isVoid (by simp) rfl rfl rfl
  | restart =>
    change Outcome s .restart (s.restart.map fun _ => .done)
    cases hs : s.phase with
    | armed =>
      simp only [restart, Session.cancel, hs]
      exact .rearmed rfl (by rw [hs]; nofun) rfl rfl rfl
    | dragging anchor =>
      simp only [restart, Session.cancel, hs]
      exact .cancelled anchor hs rfl rfl rfl
    | committed =>
      simp only [restart, Session.cancel, hs]
      exact .rearmed rfl (by rw [hs]; nofun) rfl rfl rfl

/-! ## Answers and events of one operation -/

/-- An event is told exactly with the answer that belongs to it. -/
theorem mem_events_iff (s : Session) (i : Input) :
    let st := s.handle i
    st.events.length ≤ 1 ∧
    (st.answer = .pressed true ↔ ∃ anchor, .begun anchor ∈ st.events) ∧
    (∀ box extent, .drawn box extent ∈ st.events ↔
      st.answer = .moved (some box) ∧ extent = st.session.extent ∧ extent.isDrawable = true) ∧
    ∀ extent, .ended extent ∈ st.events ↔ st.answer = .released (some extent) := by
  intro st
  cases outcome s i with
  | began anchor before after events answer => simp [st, events, answer]
  | drew anchor box before after events answer drawable =>
    simp only [st, events, answer]
    refine ⟨le_rfl, by simp, ?_, by simp⟩
    intro box' extent
    rw [List.mem_singleton, Event.drawn.injEq, Answer.moved.injEq, Option.some.injEq]
    constructor
    · rintro ⟨rfl, rfl⟩
      exact ⟨rfl, rfl, drawable⟩
    · rintro ⟨rfl, rfl, -⟩
      exact ⟨rfl, rfl⟩
  | ended anchor before after kept events answer =>
    simp only [st, events, answer]
    refine ⟨le_rfl, by simp, by simp, ?_⟩
    intro extent
    rw [List.mem_singleton, Event.ended.injEq, Answer.released.injEq, Option.some.injEq, eq_comm]
  | cancelled anchor before after events answer => simp [st, events, answer]
  | rearmed input before after events answer => simp [st, events, answer]
  | silent input after events pressed released moved =>
    simp only [st, events]
    refine ⟨Nat.zero_le _, iff_of_false pressed (by simp), ?_, fun extent => iff_of_false (by simp) (released extent)⟩
    intro box extent
    refine iff_of_false (by simp) ?_
    rintro ⟨h, rfl, hd⟩
    rw [moved box h] at hd
    cases hd

/-! ## The language of the events -/

/-- The events of a run. -/
def told (steps : List (Step Answer)) : List Event :=
  steps.flatMap (·.events)

theorem told_concat (steps : List (Step Answer)) (st : Step Answer) : told (steps ++ [st]) = told steps ++ st.events := by
  rw [told, List.flatMap_append, List.flatMap_singleton, told]

/-- What is told of a drag up to its end. -/
def beginning : Language Event.Kind := {[.begun]} * {[.drawn]}∗

/-- What ends a drag. -/
def ending : Language Event.Kind := {[.ended]} + {[.cancelled]}

/-- What is told of drags one after the other. -/
def lifecycle : Language Event.Kind := (beginning * ending)∗

variable {w : List Event.Kind}

/-- A drag may begin where none is going on. -/
theorem append_begun (h : w ∈ lifecycle) : w ++ [.begun] ∈ lifecycle * beginning := by
  have hb : [Event.Kind.begun] ++ [] ∈ beginning := Language.append_mem_mul rfl (Language.nil_mem_kstar _)
  exact Language.append_mem_mul h hb

/-- A box may be drawn where one is. -/
theorem append_drawn (h : w ∈ lifecycle * beginning) : w ++ [.drawn] ∈ lifecycle * beginning := by
  have hle : lifecycle * beginning * {[.drawn]} ≤ lifecycle * beginning := by
    rw [beginning, mul_assoc, mul_assoc ({[.begun]} : Language Event.Kind)]
    exact mul_le_mul_right (mul_le_mul_right kstar_mul_le_kstar _) _
  exact hle (Language.append_mem_mul h rfl)

/-- An end completes a drag. -/
theorem append_ending {k : Event.Kind} (h : w ∈ lifecycle * beginning) (hk : [k] ∈ ending) : w ++ [k] ∈ lifecycle := by
  have hle : lifecycle * beginning * ending ≤ lifecycle := by
    rw [mul_assoc]
    exact kstar_mul_le_kstar
  exact hle (Language.append_mem_mul h hk)

/-- In a drag the events so far are those of complete drags and the beginning of one; otherwise, those of complete drags. -/
theorem told_mem (settings : Settings) (inputs : List Input) :
    (∀ anchor, ((start settings).after inputs).phase = .dragging anchor →
      (told ((start settings).run inputs)).map Event.kind ∈ lifecycle * beginning) ∧
    ((∀ anchor, ((start settings).after inputs).phase ≠ .dragging anchor) →
      (told ((start settings).run inputs)).map Event.kind ∈ lifecycle) := by
  induction inputs using List.reverseRecOn with
  | nil => exact ⟨nofun, fun _ => Language.nil_mem_kstar _⟩
  | append_singleton l i ih =>
    obtain ⟨inDrag, outside⟩ := ih
    rw [after_concat, run_concat, told_concat, List.map_append]
    cases outcome ((start settings).after l) i with
    | began anchor before after events answer =>
      rw [after, events]
      exact ⟨fun _ _ => append_begun (outside (by rw [before]; nofun)), fun h => absurd rfl (h anchor)⟩
    | drew anchor box before after events answer drawable =>
      rw [after, events]
      exact ⟨fun _ _ => append_drawn (inDrag anchor before), fun h => absurd rfl (h anchor)⟩
    | ended anchor before after extent events answer =>
      rw [after, events]
      exact ⟨nofun, fun _ => append_ending (inDrag anchor before) (Or.inl rfl)⟩
    | cancelled anchor before after events answer =>
      rw [after, events]
      exact ⟨nofun, fun _ => append_ending (inDrag anchor before) (Or.inr rfl)⟩
    | rearmed input before after events answer =>
      rw [after, events, List.map_nil, List.append_nil]
      exact ⟨nofun, fun _ => outside before⟩
    | silent input after events pressed released moved =>
      rw [after, events, List.map_nil, List.append_nil]
      exact ⟨inDrag, outside⟩

/-- What is told of a session is the beginning of what may be told of drags one after the other. -/
theorem exists_prefix_of_lifecycle (settings : Settings) (inputs : List Input) :
    ∃ w ∈ lifecycle, (told ((start settings).run inputs)).map Event.kind <+: w := by
  obtain ⟨inDrag, outside⟩ := told_mem settings inputs
  by_cases h : ∃ anchor, ((start settings).after inputs).phase = .dragging anchor
  · obtain ⟨anchor, h⟩ := h
    exact ⟨_, append_ending (inDrag anchor h) (Or.inl rfl), List.prefix_append _ _⟩
  · exact ⟨_, outside fun anchor ha => h ⟨anchor, ha⟩, List.prefix_refl _⟩

/-! ## The phase -/

/-- What decides the phase: events, and restarts, which need not be told. -/
inductive Mark where
  | told (event : Event)
  | restarted

/-- The phase after an event or a restart. -/
def Mark.lead (p : Phase) : Mark → Phase
  | told (.begun anchor) => .dragging anchor
  | told (.drawn ..) => p
  | told (.ended _) => .committed
  | told .cancelled => .armed
  | restarted => .armed

/-- The marks that an operation leaves. -/
def marksOf (i : Input) (events : List Event) : List Mark :=
  match i with
  | .restart => events.map .told ++ [.restarted]
  | _ => events.map .told

/-- The marks that a sequence of operations leaves. -/
def marks (s : Session) : List Input → List Mark
  | [] => []
  | i :: rest => marksOf i (s.handle i).events ++ (s.handle i).session.marks rest

/-- The marks of an operation lead to the phase after it. -/
theorem lead_marksOf (s : Session) (i : Input) :
    (marksOf i (s.handle i).events).foldl Mark.lead s.phase = (s.handle i).session.phase := by
  by_cases hi : i = .restart
  · subst hi
    exact List.foldl_concat ..
  · have hm : marksOf i (s.handle i).events = (s.handle i).events.map .told := by
      cases i <;> first | rfl | exact absurd rfl hi
    rw [hm]
    cases outcome s i with
    | began anchor before after events answer => rw [events, after]; rfl
    | drew anchor box before after events answer drawable => rw [events, after, before]; rfl
    | ended anchor before after extent events answer => rw [events, after]; rfl
    | cancelled anchor before after events answer => rw [events, after]; rfl
    | rearmed input before after events answer => exact absurd input hi
    | silent input after events pressed released moved => rw [events, after]; rfl

/-- The marks of a run decide the phase after it. -/
theorem phase_after (s : Session) (inputs : List Input) : (s.after inputs).phase = (s.marks inputs).foldl Mark.lead s.phase := by
  induction inputs generalizing s with
  | nil => rfl
  | cons i rest ih =>
    rw [marks, List.foldl_append, lead_marksOf, ← ih]
    rfl

/-- The last beginning told is that of a drag from `anchor`, and neither an end nor a cancellation was told since. -/
def Unended (anchor : Point) (events : List Event) : Prop :=
  ∃ earlier later, events = earlier ++ .begun anchor :: later ∧ ∀ e ∈ later, e.kind = .drawn

/-- A drag that has not ended was just begun, or it was drawn. -/
theorem unended_concat {anchor : Point} {events : List Event} {e : Event} :
    Unended anchor (events ++ [e]) ↔ e = .begun anchor ∨ e.kind = .drawn ∧ Unended anchor events := by
  constructor
  · rintro ⟨earlier, later, h, drawn⟩
    rcases List.eq_nil_or_concat later with rfl | ⟨later, x, rfl⟩
    · exact Or.inl (List.append_inj_right' h rfl |> List.singleton_inj.1)
    · rw [List.concat_eq_append, ← List.cons_append, ← List.append_assoc] at h
      obtain ⟨h1, h2⟩ := List.append_inj' h rfl
      obtain rfl := List.singleton_inj.1 h2
      refine Or.inr ⟨drawn e (by simp), earlier, later, h1, ?_⟩
      intro y hy
      exact drawn y (by simp [hy])
  · rintro (rfl | ⟨hk, earlier, later, rfl, drawn⟩)
    · exact ⟨events, [], rfl, nofun⟩
    · refine ⟨earlier, later ++ [e], by simp, ?_⟩
      intro y hy
      rcases List.mem_append.1 hy with hy | hy
      · exact drawn y hy
      · rw [List.mem_singleton.1 hy, hk]

/-- A session is in a drag exactly if the last beginning told has no end and no cancellation yet. -/
theorem phase_eq_dragging_iff (settings : Settings) (inputs : List Input) (anchor : Point) :
    ((start settings).after inputs).phase = .dragging anchor ↔ Unended anchor (told ((start settings).run inputs)) := by
  induction inputs using List.reverseRecOn with
  | nil =>
    refine iff_of_false nofun ?_
    rintro ⟨earlier, later, h, -⟩
    exact List.append_ne_nil_of_right_ne_nil earlier (List.cons_ne_nil _ _) h.symm
  | append_singleton l i ih =>
    rw [after_concat, run_concat, told_concat]
    cases outcome ((start settings).after l) i with
    | began anchor' before after events answer =>
      rw [after, events, unended_concat]
      simp [Event.kind]
    | drew anchor' box before after events answer drawable =>
      rw [after, events, unended_concat, ← ih, before]
      simp [Event.kind]
    | ended anchor' before after extent events answer =>
      rw [after, events, unended_concat]
      simp [Event.kind]
    | cancelled anchor' before after events answer =>
      rw [after, events, unended_concat]
      simp [Event.kind]
    | rearmed input before after events answer =>
      rw [after, events, List.append_nil, ← ih]
      exact iff_of_false nofun (before anchor)
    | silent input after events pressed released moved =>
      rw [after, events, List.append_nil, ih]

/-! ## After the end -/

/-- A committed session does nothing before a restart. -/
theorem handle_of_committed (h : s.phase = .committed) {i : Input} (hi : i ≠ .restart) :
    (s.handle i).session = s ∧ (s.handle i).events = [] ∧ (s.handle i).answer.box? = none ∧
      (s.handle i).answer.extent? = none := by
  cases i with
  | press point => simp [handle, press, h, Step.map, Answer.box?, Answer.extent?]
  | move point => simp [handle, move, h, Step.map, Answer.box?, Answer.extent?]
  | release => simp [handle, release, h, Step.map, Answer.box?, Answer.extent?]
  | cancel => simp [handle, Session.cancel, h, Step.map, Answer.box?, Answer.extent?]
  | restart => exact absurd rfl hi

/-- Nor does it in a run without a restart. -/
theorem run_of_committed (h : s.phase = .committed) {inputs : List Input} (hi : ∀ i ∈ inputs, i ≠ .restart) :
    s.after inputs = s ∧ ∀ st ∈ s.run inputs, st.events = [] ∧ st.answer.box? = none ∧ st.answer.extent? = none := by
  induction inputs with
  | nil => exact ⟨rfl, fun _ hst => absurd hst List.not_mem_nil⟩
  | cons i rest ih =>
    have stands := handle_of_committed h (hi i List.mem_cons_self)
    have others := ih fun j hj => hi j (List.mem_cons_of_mem i hj)
    have hafter : s.after (i :: rest) = (s.handle i).session.after rest := rfl
    have hrun : s.run (i :: rest) = s.handle i :: (s.handle i).session.run rest := rfl
    rw [hafter, hrun, stands.1]
    refine ⟨others.1, ?_⟩
    intro st hst
    rw [List.mem_cons] at hst
    rcases hst with hst | hst
    · rw [hst]
      exact stands.2
    · exact others.2 st hst

/-- Once the end of a drag was told, a session stands still before a restart, with the extent that was told. -/
theorem after_ended {i : Input} {extent : Extent} (h : .ended extent ∈ (s.handle i).events) {later : List Input}
    (hl : ∀ j ∈ later, j ≠ .restart) :
    (s.handle i).session.phase = .committed ∧ (s.handle i).session.extent = extent ∧
      (s.handle i).session.after later = (s.handle i).session ∧
      ∀ st ∈ (s.handle i).session.run later, st.events = [] ∧ st.answer.box? = none ∧ st.answer.extent? = none := by
  cases outcome s i with
  | ended anchor before after kept events answer =>
    rw [events, List.mem_singleton, Event.ended.injEq] at h
    exact ⟨after, kept.trans h.symm, run_of_committed after hl⟩
  | began anchor before after events answer => simp [events] at h
  | drew anchor box before after events answer drawable => simp [events] at h
  | cancelled anchor before after events answer => simp [events] at h
  | rearmed input before after events answer => simp [events] at h
  | silent input after events pressed released moved => simp [events] at h

/-- In every run: what is told is the beginning of a word of drags one after the other, each begun, drawn, and ended or cancelled; it
decides the phase together with the restarts, and there is a drag exactly if the last beginning has no end and no cancellation yet. An
operation tells at most one event, which it tells exactly with the answer that belongs to it; once an end was told, nothing changes,
is told or is given out before a restart. -/
theorem told_follows_lifecycle (settings : Settings) (inputs : List Input) :
    let s := (start settings).after inputs
    let events := told ((start settings).run inputs)
    (∃ w ∈ lifecycle, events.map Event.kind <+: w) ∧
    s.phase = ((start settings).marks inputs).foldl Mark.lead .armed ∧
    (∀ anchor, s.phase = .dragging anchor ↔ Unended anchor events) ∧
    ∀ i,
      let st := s.handle i
      st.events.length ≤ 1 ∧
      (st.answer = .pressed true ↔ ∃ anchor, .begun anchor ∈ st.events) ∧
      (∀ box extent, .drawn box extent ∈ st.events ↔
        st.answer = .moved (some box) ∧ extent = st.session.extent ∧ extent.isDrawable = true) ∧
      (∀ extent, .ended extent ∈ st.events ↔ st.answer = .released (some extent)) ∧
      ∀ extent later, .ended extent ∈ st.events → (∀ j ∈ later, j ≠ .restart) →
        st.session.phase = .committed ∧ st.session.extent = extent ∧ st.session.after later = st.session ∧
          ∀ st' ∈ st.session.run later, st'.events = [] ∧ st'.answer.box? = none ∧ st'.answer.extent? = none := by
  intro s events
  refine ⟨exists_prefix_of_lifecycle settings inputs, phase_after (start settings) inputs, phase_eq_dragging_iff settings inputs, ?_⟩
  intro i st
  obtain ⟨h1, h2, h3, h4⟩ := mem_events_iff s i
  exact ⟨h1, h2, h3, h4, fun extent later h hl => after_ended h hl⟩

/-- After a drag over the date line is released, a press, a move, a second release and a cancellation do nothing. -/
theorem told_follows_lifecycle_released :
    let drag := [Input.press (some ⟨0, 3⟩), .move (some ⟨0.1, 3.1⟩), .move (some ⟨0.2, -3⟩)]
    let later := [Input.press (some ⟨0.1, 1⟩), .move (some ⟨0.2, 2⟩), .release, .cancel]
    let st := ((start {}).after drag).handle .release
    (∃ extent, .ended extent ∈ st.events) ∧ (∀ j ∈ later, j ≠ .restart) ∧ st.session.after later = st.session := by
  intro drag later st
  have drags : Drags {} [] ⟨0, 3⟩ [.move (some ⟨0.1, 3.1⟩), .move (some ⟨0.2, -3⟩)] := ⟨rfl, by decide, by simp [Input.staysInDrag]⟩
  have ended : .ended ((start {}).after drag).extent ∈ st.events := by
    rw [show st = ((start {}).after drag).handle .release from rfl, show (start {}).after drag = _ from drags.after_press.2]
    exact List.mem_singleton_self _
  have quiet : ∀ j ∈ later, j ≠ .restart := by simp [later]
  exact ⟨⟨_, ended⟩, quiet, ((told_follows_lifecycle {} drag).2.2.2 .release).2.2.2.2 _ later ended quiet |>.2.2.1⟩

end Session

end GlobeDrag
