import Schemata.Proofs.Model.Loads

/-!
# Values made by calls

`Store.constructAll` makes several values, one after the other, where a later call can be given the
values of the calls before it. In a sound model every type and every alternative of it has calls
that make a value of it (`Model.Sound.exists_calls`): the single fields are made first, by induction
on a finite value of their types, and the other fields are left out.
-/

namespace Schemata

/-- What one construction is given: the name of a type, for a sum that of a constructor, and
contents for the fields. -/
structure Construct.Call where
  typeName : String
  constructorName : Option String
  inputs : Inputs
deriving DecidableEq, Repr

/-- Make the values of calls one after the other. -/
def Store.constructAll (s : Store) (m : Model) :
    List Construct.Call → Except ConstructError (List Ref × Store)
  | [] => .ok ([], s)
  | call :: calls => do
    let (r, s') ← s.construct m call.typeName call.constructorName call.inputs
    let (rs, s'') ← s'.constructAll m calls
    pure (r :: rs, s'')

/-- Calls that name their types in full, with the values that they make. -/
structure Store.Builds (s : Store) (m : Model) (calls : List Construct.Call) (rs : List Ref)
    (s' : Store) : Prop where
  qualified : ∀ call ∈ calls, ∃ t ∈ m.types, call.typeName = t.id
  made : s.constructAll m calls = .ok (rs, s')
  grows : s.Extends s'

/-- The datum is of the type in this store and in every store that grows from it. -/
def Store.Supplies (s : Store) (type : TypeRef) (d : Datum) : Prop :=
  ∀ s', s.Extends s' → s'.Conforms (Check.isBuilt s') type d

/-- In every store there are calls behind which there is a datum of the type. -/
def TypeRef.Buildable (type : TypeRef) (m : Model) : Prop :=
  ∀ s : Store, ∃ calls rs s' d, s.Builds m calls rs s' ∧ s'.Supplies type d

/-- A single field is given a datum of its type, any other field is left out. -/
def Construct.Given (s : Store) (r : Record Datum) (f : Field) : Prop :=
  match f.multiplicity with
  | .single => ∃ d, r.get? f.name = some d ∧ s.Supplies f.type d
  | _ => r.get? f.name = none

namespace Store

variable {s s' s'' : Store} {m : Model} {calls calls' : List Construct.Call} {rs rs' : List Ref}
  {type : TypeRef} {d : Datum}

/-! ## Sequences of calls -/

theorem constructAll_append (h : s.constructAll m calls = .ok (rs, s'))
    (h' : s'.constructAll m calls' = .ok (rs', s'')) :
    s.constructAll m (calls ++ calls') = .ok (rs ++ rs', s'') := by
  induction calls generalizing s rs with
  | nil =>
    obtain ⟨rfl, rfl⟩ := Prod.mk.inj (Except.ok.inj h)
    exact h'
  | cons call calls ih =>
    obtain ⟨⟨r, s₁⟩, hcall, h⟩ := Outcome.bind_eq_ok.mp h
    obtain ⟨⟨rest, s₂⟩, hrest, h⟩ := Outcome.bind_eq_ok.mp h
    obtain ⟨rfl, rfl⟩ := Prod.mk.inj (Outcome.pure_eq_ok.mp h)
    rw [List.cons_append, constructAll, hcall, Outcome.ok_bind]
    dsimp only
    rw [ih hrest]
    rfl

namespace Builds

theorem nil (s : Store) (m : Model) : s.Builds m [] [] s :=
  ⟨by simp, rfl, .refl s⟩

theorem append (h : s.Builds m calls rs s') (h' : s'.Builds m calls' rs' s'') :
    s.Builds m (calls ++ calls') (rs ++ rs') s'' where
  qualified := List.forall_mem_append.mpr ⟨h.qualified, h'.qualified⟩
  made := constructAll_append h.made h'.made
  grows := h.grows.trans h'.grows

theorem single {t : TypeDef} {name : Option String} {inputs : Inputs} {r : Ref}
    (ht : t ∈ m.types) (h : s.construct m t.id name inputs = .ok (r, s')) (hs : s.Extends s') :
    s.Builds m [⟨t.id, name, inputs⟩] [r] s' where
  qualified := List.forall_mem_singleton.mpr ⟨t, ht, rfl⟩
  made := by
    rw [constructAll, h]
    rfl
  grows := hs

end Builds

/-! ## Supplies -/

theorem Supplies.extends (h : s.Supplies type d) (hs : s.Extends s') : s'.Supplies type d :=
  fun s'' hs' => h s'' (hs.trans hs')

/-- A datum of a type is in the store. -/
theorem Supplies.holds (h : s.Supplies type d) : s.Holds d := by
  rintro r rfl
  cases type with
  | primitive p =>
    cases h s (.refl s) with
    | primitive hp => exact absurd rfl (ne_object_of_accepts hp r)
  | declared key =>
    obtain ⟨v, t, declared, hv, -⟩ := (h s (.refl s)).view?_of_declared
    obtain ⟨_, ⟨⟩, hlt⟩ := eq_object_of_view? hv
    exact hlt

theorem supplies_primitive {p : Primitive} (hd : p.accepts d = true) :
    s.Supplies (.primitive p) d :=
  fun _ _ => .primitive hd

/-- A value made by construction stays one of its type. -/
theorem supplies_of_hasBuilt {t : TypeDef} {c : Option Constructor} {fields : List Datum} {r : Ref}
    (hc : t.Alternative c) (hr : s.HasBuilt r ⟨t, c, fields⟩) :
    s.Supplies (.declared t.key) (.object r) := by
  intro s' hs
  have hr' := hs.hasBuilt hr
  exact .trusted hr'.view? (hc.isOf fields) (Check.isBuilt_of_hasBuilt hr')

/-- A datum of a type passes the check wherever it is looked at. -/
theorem Supplies.checkField_eq_ok {f : Field} (hm : f.multiplicity = .single)
    (h : s.Supplies f.type d) (place : Path) : s.checkField f d place = .ok () := by
  refine checkField_eq_ok_iff.mpr ⟨[d], by rw [elements?, hm], fun e he => ?_⟩
  rw [List.mem_singleton.mp he]
  exact h s (.refl s)

end Store

namespace Construct

variable {s s' : Store} {m : Model} {r : Record Datum} {f : Field} {t : TypeDef}
  {c : Option Constructor}

/-! ## Inputs by name -/

theorem Given.extends (h : Given s r f) (hs : s.Extends s') : Given s' r f := by
  unfold Given at *
  cases hm : f.multiplicity <;> simp only [hm] at h ⊢
  case single =>
    obtain ⟨d, hd, hsupplies⟩ := h
    exact ⟨d, hd, hsupplies.extends hs⟩
  case optional => exact h
  case repeated => exact h

theorem Given.congr {r' : Record Datum} (h : Given s r f) (hr : r'.get? f.name = r.get? f.name) :
    Given s r' f := by
  unfold Given at *
  rwa [hr]

/-- There are calls that make a datum for each single field. -/
theorem exists_given {fs : List Field} (hnames : (fs.map Field.name).Nodup)
    (hfs : ∀ f ∈ fs, f.multiplicity = .single → f.type.Buildable m) (s : Store) :
    ∃ calls rs s' r, s.Builds m calls rs s' ∧ (∀ name ∈ r.keys, name ∈ fs.map Field.name) ∧
      (∀ d ∈ r.entries.map Prod.snd, s'.Holds d) ∧ ∀ f ∈ fs, Given s' r f := by
  induction fs with
  | nil => exact ⟨[], [], s, ⟨[]⟩, .nil s m, by simp [Record.keys], by simp, by simp⟩
  | cons f fs ih =>
    obtain ⟨hf, hfs⟩ := List.forall_mem_cons.mp hfs
    obtain ⟨hfresh, hnames⟩ := List.nodup_cons.mp hnames
    obtain ⟨calls, rs, s₁, ⟨es⟩, hbuilds, hkeys, hholds, hgiven⟩ := ih hnames hfs
    by_cases hm : f.multiplicity = .single
    · obtain ⟨calls', rs', s₂, d, hbuilds', hd⟩ := hf hm s₁
      refine ⟨_, _, s₂, ⟨(f.name, d) :: es⟩, hbuilds.append hbuilds', ?_, ?_, ?_⟩
      · rw [Record.keys, List.map_cons, List.map_cons, List.forall_mem_cons]
        exact ⟨List.mem_cons_self, fun name hname => List.mem_cons_of_mem _ (hkeys name hname)⟩
      · rw [List.map_cons, List.forall_mem_cons]
        exact ⟨hd.holds, fun e he => hbuilds'.grows.holds (hholds e he)⟩
      · refine List.forall_mem_cons.mpr ⟨?_, fun g hg => ?_⟩
        · unfold Given
          rw [hm]
          exact ⟨d, Record.get?_cons_self, hd⟩
        · have hne : f.name ≠ g.name := fun heq => hfresh (heq ▸ List.mem_map_of_mem hg)
          exact ((hgiven g hg).extends hbuilds'.grows).congr (Record.get?_cons_of_ne hne)
    · refine ⟨calls, rs, s₁, ⟨es⟩, hbuilds, ?_, hholds, List.forall_mem_cons.mpr ⟨?_, hgiven⟩⟩
      · exact fun name hname => List.mem_cons_of_mem _ (hkeys name hname)
      · have hnone : (Record.mk es).get? f.name = none :=
          Record.get?_eq_none_iff.mpr fun hmem => hfresh (hkeys _ hmem)
        unfold Given
        cases hm' : f.multiplicity with
        | single => exact absurd hm' hm
        | optional => exact hnone
        | repeated => exact hnone

theorem Given.exists_namedContent (h : Given s r f) (label : String) :
    ∃ d, namedContent s label r f = .ok d := by
  unfold Given at h
  unfold namedContent
  cases hm : f.multiplicity <;> simp only [hm] at h
  case single =>
    obtain ⟨d, hd, hsupplies⟩ := h
    simp only [hd, hsupplies.checkField_eq_ok hm]
    exact ⟨d, rfl⟩
  case optional => exact ⟨.absent, by simp only [h]⟩
  case repeated => exact ⟨.absent, by simp only [h]⟩

theorem exists_contents_eq_ok {declared : List Field} (label : String)
    (hkeys : ∀ name ∈ r.keys, name ∈ declared.map Field.name)
    (hgiven : ∀ f ∈ declared, Given s r f) :
    ∃ ds, contents s label declared (.named r) = .ok ds := by
  have hknown : r.keys.filter (· ∉ declared.map Field.name) = [] := by
    rw [List.filter_eq_nil_iff]
    intro name hname
    simpa using hkeys name hname
  unfold contents
  simp only [hknown]
  exact Outcome.exists_mapM_eq_ok fun f hf => (hgiven f hf).exists_namedContent label

/-- The name of an alternative is that of no other one. -/
theorem constructor_name (ht : t.Distinct) (hc : t.Alternative c) :
    constructor t (c.map Constructor.name) = .ok c := by
  unfold constructor
  cases hc with
  | product hshape => simp only [hshape, Option.map_none]
  | @sum cs attributes c hshape hc =>
    have hnames := ht.constructors
    rw [TypeDef.constructors, hshape] at hnames
    have hfind : cs.find? (·.name = c.name) = some c := by
      refine Outcome.find?_eq_some_of_unique hc (decide_eq_true rfl) fun other hother hname => ?_
      exact List.inj_on_of_nodup_map hnames hother hc (of_decide_eq_true hname)
    simp only [hshape, Option.map_some, hfind]

end Construct

namespace Model

variable {m : Model} {next : Nat} {t : TypeDef} {c : Option Constructor} {type : TypeRef}

/-- If all single fields of an alternative can be made, there are calls that make a value of it. -/
theorem Sound.exists_calls_of_buildable (h : m.Sound next) (ht : t ∈ m.types)
    (hc : t.Alternative c)
    (hfields : ∀ f ∈ Construct.declared t c, f.multiplicity = .single → f.type.Buildable m)
    (s : Store) :
    ∃ calls rs r s' fields, s.Builds m calls (rs ++ [r]) s' ∧ s'.HasBuilt r ⟨t, c, fields⟩ := by
  have hdistinct := h.distinct t ht
  obtain ⟨calls, rs, s₁, inputs, hbuilds, hkeys, hholds, hgiven⟩ :=
    Construct.exists_given (hdistinct.fields c hc) hfields s
  obtain ⟨ds, hds⟩ := Construct.exists_contents_eq_ok (Construct.label t c) hkeys hgiven
  have hmade : ∃ r s', s₁.construct m t.id (c.map Constructor.name) (.named inputs) =
      .ok (r, s') := by
    unfold Store.construct
    rw [h.getType_id ht]
    simp only [Except.mapError, Outcome.ok_bind, Construct.constructor_name hdistinct hc, hds]
    exact ⟨_, _, rfl⟩
  obtain ⟨r, s₂, hmade⟩ := hmade
  obtain ⟨⟨t', c', fields⟩, ht', hc', hmade'⟩ := Store.of_construct_eq_ok hmade hholds
  obtain rfl := Except.ok.inj ((h.getType_id ht).symm.trans ht')
  obtain rfl := Except.ok.inj ((Construct.constructor_name hdistinct hc).symm.trans hc')
  exact ⟨_, rs, r, s₂, fields, hbuilds.append (.single ht hmade hmade'.grows), hmade'.built⟩

/-- Values of types that have finite ones can be made. -/
theorem Sound.buildable (h : m.Sound next) (hvalue : type.HasValue m.types) :
    type.Buildable m := by
  refine hvalue.induct (P := fun type => type.Buildable m) (fun p s => ?_)
    fun t c ht hc hfields s => ?_
  · obtain ⟨d, hd⟩ := p.exists_accepts
    exact ⟨[], [], s, d, .nil s m, Store.supplies_primitive hd⟩
  · obtain ⟨calls, rs, r, s', fields, hbuilds, hr⟩ :=
      h.exists_calls_of_buildable ht hc hfields s
    exact ⟨calls, _, s', .object r, hbuilds, Store.supplies_of_hasBuilt hc hr⟩

/-- In a sound model there are calls that make a value of any type and any alternative of it. -/
theorem Sound.exists_calls (h : m.Sound next) (ht : t ∈ m.types) (hc : t.Alternative c)
    (s : Store) :
    ∃ calls rs r s' fields, s.Builds m calls (rs ++ [r]) s' ∧ s'.HasBuilt r ⟨t, c, fields⟩ := by
  refine h.exists_calls_of_buildable ht hc (fun f hf _ => ?_) s
  cases hf' : f.type with
  | primitive p => exact h.buildable (TypeRef.hasValue_primitive p)
  | declared k =>
    obtain ⟨t', ht', rfl⟩ := h.closed t ht k ⟨c, hc, f, hf, hf'⟩
    exact h.buildable (h.values t' ht')

end Model

end Schemata
