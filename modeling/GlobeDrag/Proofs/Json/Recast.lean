import GlobeDrag.Proofs.Json.Shape

/-!
# Objects written otherwise

The members of an object may be written in another order, members of unknown name may be added, and a member may be left out, or its value
be written otherwise, where that makes no difference. `Recast` is one such change, and what it is allowed to do to a record is the record's
`Freedom`. A record is read as before, because a draft is no more than what its fields hold.

Main statements: `Shape.foldlM_perm` (the order of members does not matter), `Shape.denote_recast` (one change) and `Shape.document_recast`
(any changes, and any blanks).
-/

namespace GlobeDrag.Json

/-! ## Changes -/

/-- What may be done to the members of an object that is read as some record. -/
structure Freedom where
  /-- The names of the fields. Members of other names may be added. -/
  known : List String
  /-- Members that may be left out. -/
  isIdle : String → Value → Prop
  /-- A value that may be written in place of another as the value of a member. -/
  isAlike : String → Value → Value → Prop

/-- An object is written otherwise. -/
inductive Recast (free : Freedom) : Value → Value → Prop
  | permute {ms ns : List (List Piece × Value)} (perm : ms.Perm ns) : Recast free (.object ms) (.object ns)
  | insert {before after : List (List Piece × Value)} {k : List Piece} {v : Value} {name : String} (named : nameOf k = some name)
      (unknown : name ∉ free.known) : Recast free (.object (before ++ after)) (.object (before ++ (k, v) :: after))
  | leaveOut {before after : List (List Piece × Value)} {k : List Piece} {v : Value} {name : String} (named : nameOf k = some name)
      (idle : free.isIdle name v) : Recast free (.object (before ++ (k, v) :: after)) (.object (before ++ after))
  | within {before after : List (List Piece × Value)} {k : List Piece} {v w : Value} {name : String} (named : nameOf k = some name)
      (alike : free.isAlike name v w) : Recast free (.object (before ++ (k, v) :: after)) (.object (before ++ (k, w) :: after))

namespace Shape

variable {σ ρ γ : Type} {sh : Shape σ ρ} {meaning : String → Value → Option (σ → σ)} {view : σ → String → Option γ} {free : Freedom}
  {a b c : σ} {name other : String} {v w : Value} {ms ns : List (List Piece × Value)} {x : ρ}

/-! ## Drafts -/

/-- A draft is no more than what its fields hold: that says which fields are taken and which record is built, and a member sets the field of
its name. -/
structure HasView (sh : Shape σ ρ) (meaning : String → Value → Option (σ → σ)) (view : σ → String → Option γ) : Prop where
  isTaken_eq : ∀ f ∈ sh.fields, ∀ draft, f.isTaken draft = (view draft f.name).isSome
  view_change : ∀ f ∈ sh.fields, ∀ v g, meaning f.name v = some g → ∃ y, ∀ draft, view (g draft) = Function.update (view draft) f.name (some y)
  build_eq : ∀ a b, view a = view b → sh.build a = sh.build b

/-- What may be done to the members makes no difference to the record. -/
structure Permits (sh : Shape σ ρ) (meaning : String → Value → Option (σ → σ)) (free : Freedom) : Prop where
  unknown : ∀ name, name ∉ free.known → sh.field? name = none
  idle : ∀ {a b name v}, free.isIdle name v → sh.change meaning a name v = some b → sh.build b = sh.build a
  alike : ∀ {name v w g}, free.isAlike name v w → meaning name v = some g → meaning name w = some g

/-- A name that is not among those of the fields has no field. -/
theorem field?_eq_none (h : name ∉ sh.fields.map Field.name) : sh.field? name = none := by
  refine List.find?_eq_none.2 fun f hf hn => h ?_
  rw [← of_decide_eq_true hn]
  exact List.mem_map_of_mem hf

/-- A member without a field changes nothing. -/
theorem change_of_unknown (h : sh.field? name = none) : sh.change meaning a name v = some a := by
  rw [change, h]

/-- What a member does to drafts: it keeps them, it is refused, or it sets the field of its name where that is not taken. -/
inductive Acts (sh : Shape σ ρ) (meaning : String → Value → Option (σ → σ)) (view : σ → String → Option γ) (name : String) (v : Value) :
    Prop
  | keeps (h : ∀ draft, sh.change meaning draft name v = some draft)
  | fails (h : ∀ draft, sh.change meaning draft name v = none)
  | sets (g : σ → σ) (y : γ) (view_eq : ∀ draft, view (g draft) = Function.update (view draft) name (some y))
      (h : ∀ draft, sh.change meaning draft name v = if (view draft name).isSome then none else some (g draft))

/-- With a view, every member keeps a draft, sets one field of it or fails. -/
theorem HasView.acts (h : sh.HasView meaning view) (name : String) (v : Value) : Acts sh meaning view name v := by
  cases hf : sh.field? name with
  | none => exact .keeps fun draft => by rw [change, hf]
  | some f =>
    have mem : f ∈ sh.fields := List.mem_of_find?_eq_some hf
    have named : f.name = name := of_decide_eq_true (List.find?_some (p := fun f : Field σ => decide (f.name = name)) hf)
    subst named
    cases hm : meaning f.name v with
    | none =>
      refine .fails fun draft => ?_
      rw [change, hf, hm]
      exact ite_self none
    | some g =>
      obtain ⟨y, view_eq⟩ := h.view_change f mem v g hm
      refine .sets g y view_eq fun draft => ?_
      rw [change, hf, hm]
      simp only [h.isTaken_eq f mem]
      rfl

/-- Drafts with the same fields are changed alike. -/
theorem HasView.change_congr (h : sh.HasView meaning view) (hab : view a = view b) (hc : sh.change meaning a name v = some c) :
    ∃ d, sh.change meaning b name v = some d ∧ view c = view d := by
  cases h.acts name v with
  | keeps same =>
    rw [same] at hc
    cases hc
    exact ⟨b, same b, hab⟩
  | fails refused =>
    rw [refused] at hc
    cases hc
  | sets g y view_eq sets =>
    rw [sets] at hc
    split at hc
    · cases hc
    · next free =>
      cases hc
      refine ⟨g b, ?_, by rw [view_eq, view_eq, hab]⟩
      rw [sets, ← hab, if_neg free]

/-- Two members may change places. -/
theorem HasView.change_comm (h : sh.HasView meaning view) (hb : sh.change meaning a name v = some b)
    (hc : sh.change meaning b other w = some c) :
    ∃ b' c', sh.change meaning a other w = some b' ∧ sh.change meaning b' name v = some c' ∧ view c = view c' := by
  cases h.acts name v with
  | keeps same =>
    rw [same] at hb
    cases hb
    exact ⟨c, c, hc, same c, rfl⟩
  | fails refused =>
    rw [refused] at hb
    cases hb
  | sets g y view_eq sets =>
    cases h.acts other w with
    | keeps same =>
      rw [same] at hc
      cases hc
      exact ⟨a, b, same a, hb, rfl⟩
    | fails refused =>
      rw [refused] at hc
      cases hc
    | sets g' y' view_eq' sets' =>
      rw [sets] at hb
      split at hb
      · cases hb
      next free =>
      cases hb
      rw [sets'] at hc
      split at hc
      · cases hc
      next free' =>
      cases hc
      have another : other ≠ name := by
        rintro rfl
        rw [view_eq, Function.update_self] at free'
        exact free' rfl
      rw [view_eq, Function.update_of_ne another] at free'
      refine ⟨g' a, g (g' a), ?_, ?_, ?_⟩
      · rw [sets', if_neg free']
      · rw [sets, view_eq', Function.update_of_ne another.symm, if_neg free]
      · rw [view_eq', view_eq, view_eq, view_eq', Function.update_comm another]

/-- A value that may be written in place of another changes a draft like that. -/
theorem Permits.change_alike (permits : sh.Permits meaning free) (alike : free.isAlike name v w)
    (hc : sh.change meaning a name v = some b) : sh.change meaning a name w = some b := by
  unfold change at hc ⊢
  cases hf : sh.field? name with
  | none => rwa [hf] at hc
  | some f =>
    rw [hf] at hc
    simp only at hc ⊢
    split at hc
    · cases hc
    · next untaken =>
      obtain ⟨g, read, rfl⟩ := Option.map_eq_some_iff.1 hc
      rw [if_neg untaken, permits.alike alike read]
      rfl

/-! ## Members -/

/-- A member acts under its name. -/
theorem take_of_named {m : List Piece × Value} (named : nameOf m.1 = some name) (draft : σ) :
    sh.take meaning draft m = sh.change meaning draft name m.2 := by
  rw [take, named]
  rfl

/-- A member that is taken has a name. -/
theorem exists_change_of_take {m : List Piece × Value} (h : sh.take meaning a m = some b) :
    ∃ name, nameOf m.1 = some name ∧ sh.change meaning a name m.2 = some b :=
  Option.bind_eq_some_iff.1 h

/-- Drafts of one view take members alike. -/
theorem HasView.foldlM_congr (h : sh.HasView meaning view) (hab : view a = view b) (hc : ms.foldlM (sh.take meaning) a = some c) :
    ∃ d, ms.foldlM (sh.take meaning) b = some d ∧ view c = view d := by
  induction ms generalizing a b with
  | nil =>
    cases hc
    exact ⟨b, rfl, hab⟩
  | cons m ms ih =>
    obtain ⟨a', first, rest⟩ := Option.bind_eq_some_iff.1 hc
    obtain ⟨name, named, changed⟩ := exists_change_of_take first
    obtain ⟨b', changed', same⟩ := h.change_congr hab changed
    obtain ⟨d, rest', same⟩ := ih same rest
    refine ⟨d, ?_, same⟩
    rw [List.foldlM_cons, take_of_named named, changed']
    exact rest'

/-- The order of the members does not matter. -/
theorem HasView.foldlM_perm (h : sh.HasView meaning view) (perm : ms.Perm ns) (hb : ms.foldlM (sh.take meaning) a = some b) :
    ∃ c, ns.foldlM (sh.take meaning) a = some c ∧ view b = view c := by
  induction perm generalizing a b with
  | nil => exact ⟨b, hb, rfl⟩
  | cons m _ ih =>
    obtain ⟨a', first, rest⟩ := Option.bind_eq_some_iff.1 hb
    obtain ⟨c, rest', same⟩ := ih rest
    refine ⟨c, ?_, same⟩
    rw [List.foldlM_cons, first]
    exact rest'
  | swap m n ms =>
    obtain ⟨a₁, first, rest⟩ := Option.bind_eq_some_iff.1 hb
    obtain ⟨a₂, second, rest⟩ := Option.bind_eq_some_iff.1 rest
    obtain ⟨name, named, changed⟩ := exists_change_of_take first
    obtain ⟨other, named', changed'⟩ := exists_change_of_take second
    obtain ⟨b₁, b₂, first', second', same⟩ := h.change_comm changed changed'
    obtain ⟨c, rest', same⟩ := h.foldlM_congr same rest
    refine ⟨c, ?_, same⟩
    rw [List.foldlM_cons, take_of_named named', first', Option.bind_eq_bind, Option.bind_some, List.foldlM_cons,
      take_of_named named, second']
    exact rest'
  | trans _ _ ih ih' =>
    obtain ⟨c, hc, same⟩ := ih hb
    obtain ⟨d, hd, same'⟩ := ih' hc
    exact ⟨d, hd, same.trans same'⟩

/-! ## Records -/

/-- An object denotes what is built of its members. -/
theorem denote_object_eq_some :
    sh.denote meaning (.object ms) = some x ↔ ∃ draft, ms.foldlM (sh.take meaning) sh.blank = some draft ∧ sh.build draft = .ok x := by
  rw [denote, Option.bind_eq_bind, Option.bind_eq_some_iff]
  simp only [toOption_eq_some]

/-- One change makes no difference to the record. -/
theorem HasView.denote_recast (h : sh.HasView meaning view) (permits : sh.Permits meaning free) (recast : Recast free v w)
    (hv : sh.denote meaning v = some x) : sh.denote meaning w = some x := by
  cases recast with
  | permute perm =>
    obtain ⟨draft, read, built⟩ := denote_object_eq_some.1 hv
    obtain ⟨draft', read', same⟩ := h.foldlM_perm perm read
    exact denote_object_eq_some.2 ⟨draft', read', (h.build_eq _ _ same).symm.trans built⟩
  | @insert before after k v name named unknown =>
    obtain ⟨draft, read, built⟩ := denote_object_eq_some.1 hv
    refine denote_object_eq_some.2 ⟨draft, ?_, built⟩
    have keeps : ∀ d, ((k, v) :: after).foldlM (sh.take meaning) d = after.foldlM (sh.take meaning) d := by
      intro d
      rw [List.foldlM_cons, take_of_named named, change_of_unknown (permits.unknown name unknown)]
      rfl
    rw [List.foldlM_append] at read ⊢
    simp only [keeps]
    exact read
  | @leaveOut before after k v name named idle =>
    obtain ⟨draft, read, built⟩ := denote_object_eq_some.1 hv
    have toEnd : (before ++ (k, v) :: after).Perm (before ++ after ++ [(k, v)]) :=
      List.perm_middle.trans (List.perm_append_singleton (k, v) (before ++ after)).symm
    obtain ⟨draft', read', same⟩ := h.foldlM_perm toEnd read
    rw [List.foldlM_append] at read'
    obtain ⟨draft₀, read₀, last⟩ := Option.bind_eq_some_iff.1 read'
    rw [List.foldlM_cons, take_of_named named] at last
    obtain ⟨_, changed, ⟨⟩⟩ := Option.bind_eq_some_iff.1 last
    refine denote_object_eq_some.2 ⟨draft₀, read₀, ?_⟩
    rw [← permits.idle idle changed, ← h.build_eq _ _ same, built]
  | @within before after k v w name named alike =>
    obtain ⟨draft, read, built⟩ := denote_object_eq_some.1 hv
    refine denote_object_eq_some.2 ⟨draft, ?_, built⟩
    rw [List.foldlM_append] at read ⊢
    obtain ⟨draft₀, read₀, rest⟩ := Option.bind_eq_some_iff.1 read
    obtain ⟨draft₁, changed, rest⟩ := Option.bind_eq_some_iff.1 rest
    rw [take_of_named named] at changed
    rw [read₀, Option.bind_eq_bind, Option.bind_some, List.foldlM_cons, take_of_named named, permits.change_alike alike changed]
    exact rest

/-- However an object is written, with any blanks, the document is read as the same record. -/
theorem HasView.document_recast (h : sh.HasView meaning view) (permits : sh.Permits meaning free) (fields : sh.FieldsDenote meaning)
    (recast : Relation.ReflTransGen (Recast free) v w) {s t : String} (hs : v.IsText s) (ht : w.IsText t)
    (hx : sh.format.document s = .ok x) : sh.format.document t = .ok x := by
  have denoted : sh.denote meaning v = some x := ((denotes_format fields).document_eq_ok hs).1 hx
  refine ((denotes_format fields).document_eq_ok ht).2 ?_
  clear hs ht
  induction recast with
  | refl => exact denoted
  | tail _ step ih => exact h.denote_recast permits step ih

/-! ## Records of one type of value -/

section uniform

variable {α : Type} {title : String} {names : List String} {values : Format α} {build : (String → Option α) → Except String ρ}
  {d : Value → Option α} {draft draft' : List (String × α)}

/-- What the fields denote of a record all of whose fields have values of one type. -/
def setting (d : Value → Option α) (name : String) (v : Value) : Option (List (String × α) → List (String × α)) :=
  (d v).map fun x draft => (name, x) :: draft

/-- Fields of one format denote what it does. -/
theorem fieldsDenote_uniform (h : values.Denotes d) : (uniform title names values build).FieldsDenote (setting d) := by
  intro f hf
  obtain ⟨name, -, rfl⟩ := List.mem_map.1 hf
  exact h.map fun x draft => (name, x) :: draft

/-- A draft of named values is seen by their names. -/
theorem hasView_uniform :
    (uniform title names values build).HasView (setting d) fun draft name => draft.lookup name where
  isTaken_eq f hf draft := by
    obtain ⟨name, -, rfl⟩ := List.mem_map.1 hf
    rfl
  view_change f _ v g hg := by
    obtain ⟨x, -, rfl⟩ := Option.map_eq_some_iff.1 hg
    refine ⟨x, fun draft => funext fun other => ?_⟩
    by_cases h : other = f.name
    · rw [h, Function.update_self, List.lookup_cons_self]
    · rw [Function.update_of_ne h, List.lookup_cons, beq_false_of_ne h]
  build_eq a b hab := congrArg build hab

/-- A name that is not listed has no field. -/
theorem field?_uniform_eq_none (h : name ∉ names) : (uniform title names values build).field? name = none := by
  refine field?_eq_none fun hn => h ?_
  rwa [uniform, List.map_map, show Field.name ∘ _ = id from rfl, List.map_id] at hn

/-- A member adds its name and value to the draft, if its name is known. -/
theorem change_uniform (h : (uniform title names values build).change (setting d) draft name v = some draft') :
    draft' = draft ∨ ∃ x, d v = some x ∧ draft.lookup name = none ∧ draft' = (name, x) :: draft := by
  unfold change at h
  cases hf : (uniform title names values build).field? name with
  | none =>
    rw [hf] at h
    exact Or.inl (Option.some.inj h).symm
  | some f =>
    have named : f.name = name := of_decide_eq_true (List.find?_some (p := fun f : Field _ => decide (f.name = name)) hf)
    obtain ⟨_, _, rfl⟩ := List.mem_map.1 (List.mem_of_find?_eq_some hf)
    subst named
    rw [hf] at h
    simp only at h
    split at h
    · cases h
    · next untaken =>
      obtain ⟨g, hg, rfl⟩ := Option.map_eq_some_iff.1 h
      obtain ⟨x, hx, rfl⟩ := Option.map_eq_some_iff.1 hg
      exact Or.inr ⟨x, hx, Option.not_isSome_iff_eq_none.1 untaken, rfl⟩

end uniform

end Shape

end GlobeDrag.Json
