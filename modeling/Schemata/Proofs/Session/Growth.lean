import Schemata.Proofs.Model.Loads
import Schemata.Proofs.Session.Texts
import Schemata.Proofs.Value.Building

/-!
# What can be made in sessions

Every model made by loads of texts is one of a session (`Session.exists_reachable`). Writing down
lists and constructing values only adds nodes (`Session.Grown`). In this way a session that has a
model gets constructed values of all types of the model: contents for all fields of an alternative
can be made (`Session.Reachable.exists_contents`), and a construction that is given contents
succeeds (`Session.Reachable.exists_construct`).
-/

namespace Schemata

namespace Session

/-- `σ'` is a session that can be reached, with the models of `σ` and all its nodes. -/
structure Grown (σ σ' : Session) : Prop where
  reachable : σ'.Reachable
  models : σ'.models = σ.models
  grows : σ.store.Extends σ'.store

/-- The session has the datum, which is an element of the type with nothing but constructed values
in it, and no list that is nothing but a hole. -/
structure Offers (σ : Session) (type : TypeRef) (d : Datum) : Prop where
  has : σ.Has d
  hasType : σ.store.HasType type d
  constructed : σ.store.Constructed d
  solid : σ.store.Solid d

/-- The session has the datum, which is a content for the field with such elements, and not a list
that is nothing but a hole. -/
structure Content (σ : Session) (f : Field) (d : Datum) : Prop where
  has : σ.Has d
  elements : ∃ ds, σ.store.elements? f d = some ds ∧ ∀ e ∈ ds, σ.Offers f.type e
  list?_ne : σ.store.list? d ≠ some [none]

/-- Wherever the model is, a datum of the type can be made. -/
def Available (m : Model) (type : TypeRef) : Prop :=
  ∀ σ : Session, σ.Reachable → m ∈ σ.models → ∃ σ' d, σ.Grown σ' ∧ σ'.Offers type d

variable {σ σ' σ'' : Session} {m : Model} {next : Nat} {type : TypeRef} {d : Datum} {f : Field}
  {fs : List Field} {t : TypeDef} {c : Option Constructor}

namespace Grown

theorem refl (h : σ.Reachable) : σ.Grown σ := ⟨h, rfl, .refl _⟩

theorem trans (h : σ.Grown σ') (h' : σ'.Grown σ'') : σ.Grown σ'' :=
  ⟨h'.reachable, h'.models.trans h.models, h.grows.trans h'.grows⟩

theorem has (h : σ.Grown σ') (hd : σ.Has d) : σ'.Has d :=
  hd.mono (types_subset_of_models (by rw [h.models]; exact List.Subset.refl _)) h.grows.size_le

theorem list (h : σ.Reachable) {items : List Datum} (hitems : ∀ d ∈ items, σ.Has d) :
    σ.Grown { σ with store := (σ.store.add (.list false (items.map some))).2 } :=
  ⟨h.call (.list ((present_map_some items).symm ▸ hitems)), rfl, .add _ _⟩

end Grown

theorem Offers.grown (hd : σ.Offers type d) (hσ : σ.Reachable) (h : σ.Grown σ') :
    σ'.Offers type d where
  has := h.has hd.has
  hasType := h.grows.evolves.hasType hd.hasType
  constructed := hd.constructed.sameBelow
    (h.grows.sameBelow hσ.sound.holds_of_mentions hd.has.holds)
  solid := hd.solid.sameBelow (h.grows.sameBelow hσ.sound.holds_of_mentions hd.has.holds)

theorem Content.grown (hd : σ.Content f d) (hσ : σ.Reachable) (h : σ.Grown σ') :
    σ'.Content f d := by
  obtain ⟨hhas, ⟨ds, hds, hall⟩, hlist⟩ := hd
  have hsame := h.grows.sameBelow hσ.sound.holds_of_mentions hhas.holds
  refine ⟨h.has hhas, ⟨ds, (hsame.elements?_eq f).trans hds, fun e he => (hall e he).grown hσ h⟩, ?_⟩
  rwa [hsame.list?_eq]

/-! ## Models -/

/-- The number of the next module can be raised. -/
theorem Reachable.exists_serial_eq (h : σ.Reachable) {n : Nat} (hn : σ.serial ≤ n) :
    ∃ σ' : Session, σ'.Reachable ∧ σ.models ⊆ σ'.models ∧ σ'.serial = n := by
  induction hn with
  | refl => exact ⟨σ, h, List.Subset.refl _, rfl⟩
  | step _ ih =>
    obtain ⟨σ', hreached, hmodels, rfl⟩ := ih
    have hload : (Model.empty none).loadTree σ'.serial none ⟨[⟨"m", ⟨1, 1⟩, []⟩]⟩ =
        .ok ⟨.ofModules [⟨σ'.serial, "m", []⟩] none, [⟨σ'.serial, "m", []⟩], []⟩ := rfl
    exact ⟨_, hreached.tail (.load (.inr rfl) hload),
      List.Subset.trans hmodels (List.subset_cons_self _ _), rfl⟩

/-- Every model made by loads of texts is one of a session. -/
theorem exists_reachable (hm : m.Reachable next) :
    ∃ σ : Session, σ.Reachable ∧ m ∈ σ.models := by
  suffices h : ∀ n, next ≤ n → ∃ σ : Session, σ.Reachable ∧ m ∈ σ.models ∧ σ.serial = n by
    obtain ⟨σ, hσ, hmem, -⟩ := h next (Nat.le_refl _)
    exact ⟨σ, hσ, hmem⟩
  induction hm with
  | @empty limit next =>
    intro n _
    have hjoin : Step initial { initial with models := [.empty limit] } :=
      .join (List.nil_subset _)
    obtain ⟨σ, hσ, hmodels, hserial⟩ := Reachable.exists_serial_eq (.single hjoin) (Nat.zero_le n)
    exact ⟨σ, hσ, hmodels List.mem_cons_self, hserial⟩
  | @load base next serial limit source loaded _ hserial hload ih =>
    intro n hn
    obtain ⟨σ, hσ, hmem, rfl⟩ := ih serial hserial
    obtain ⟨tree, -, htree⟩ := Outcome.bind_eq_ok.mp hload
    have hstep : Step σ _ := .load (.inl hmem) htree
    obtain ⟨σ', hσ', hmodels, hserial'⟩ := Reachable.exists_serial_eq (hσ.tail hstep) hn
    exact ⟨σ', hσ', hmodels List.mem_cons_self, hserial'⟩

/-! ## Contents -/

theorem content_of_offers (hm : f.multiplicity ≠ .repeated) (hd : σ.Offers f.type d) :
    σ.Content f d := by
  refine ⟨hd.has, ⟨[d], ?_, List.forall_mem_singleton.mpr hd⟩, hd.solid d .refl⟩
  unfold Store.elements?
  cases hmult : f.multiplicity with
  | single => rfl
  | optional => simp only [hd.hasType.isEmpty_eq_false, Bool.false_eq_true, if_false]
  | repeated => exact absurd hmult hm

theorem content_absent (hm : f.multiplicity = .optional) : σ.Content f .absent := by
  refine ⟨trivial, ⟨[], ?_, fun e he => by cases he⟩, by simp [Store.list?, Store.node?]⟩
  unfold Store.elements?
  rw [hm]
  rfl

/-- A list of elements is a content for a repeated field. -/
theorem Reachable.exists_list (h : σ.Reachable) (hm : f.multiplicity = .repeated)
    (items : List Datum) (hitems : ∀ e ∈ items, σ.Offers f.type e) :
    ∃ σ' d, σ.Grown σ' ∧ σ'.Content f d ∧ σ'.store.list? d = some (items.map some) := by
  have hgrown := Grown.list h fun e he => (hitems e he).has
  have hget := Store.get?_add_self σ.store (.list false (items.map some))
  have hlist := Store.list?_of_get? hget
  refine ⟨_, .object (σ.store.add (.list false (items.map some))).1, hgrown,
    ⟨Store.lt_size_of_get? hget, ⟨items, ?_, ?_⟩, ?_⟩, hlist⟩
  · simp only [Store.elements?, hm, hlist, Option.map_some, present_map_some]
  · exact fun e he => (hitems e he).grown h hgrown
  · rw [hlist, ne_eq, Option.some.injEq]
    exact map_some_ne_hole items

/-- With a content for one more field there are contents for all fields. -/
theorem content_update {g : Field → Datum} (hd : σ.Content f d)
    (h : ∀ f' ∈ fs, f' ≠ f → σ.Content f' (g f')) :
    ∀ f' ∈ fs, σ.Content f' (Function.update g f d f') :=
  (Function.forall_update_iff g (p := fun f' d' => f' ∈ fs → σ.Content f' d')).mpr
    ⟨fun _ => hd, fun f' hne hf' => h f' hf' hne⟩

/-- Contents for all fields can be made if data for the single ones can. -/
theorem Reachable.exists_contents (h : σ.Reachable) (hmem : m ∈ σ.models)
    (hfs : ∀ f ∈ fs, f.multiplicity = .single → Available m f.type) :
    ∃ (σ' : Session) (g : Field → Datum), σ.Grown σ' ∧ ∀ f ∈ fs, σ'.Content f (g f) := by
  induction fs with
  | nil => exact ⟨σ, fun _ => .absent, .refl h, fun f hf => by cases hf⟩
  | cons f fs ih =>
    obtain ⟨hf, hfs⟩ := List.forall_mem_cons.mp hfs
    obtain ⟨σ₁, g, hgrown, hg⟩ := ih hfs
    have hcontent : ∃ σ₂ d, σ₁.Grown σ₂ ∧ σ₂.Content f d := by
      cases hm : f.multiplicity with
      | single =>
        obtain ⟨σ₂, d, hgrown₂, hd⟩ := hf hm σ₁ hgrown.reachable (hgrown.models ▸ hmem)
        exact ⟨σ₂, d, hgrown₂, content_of_offers (by simp [hm]) hd⟩
      | optional => exact ⟨σ₁, .absent, .refl hgrown.reachable, content_absent hm⟩
      | repeated =>
        obtain ⟨σ₂, d, hgrown₂, hd, -⟩ :=
          hgrown.reachable.exists_list hm [] fun e he => by cases he
        exact ⟨σ₂, d, hgrown₂, hd⟩
    obtain ⟨σ₂, d, hgrown₂, hd⟩ := hcontent
    refine ⟨σ₂, Function.update g f d, hgrown.trans hgrown₂, content_update hd fun f' hf' hne => ?_⟩
    have hmem' := (List.mem_cons.mp hf').resolve_left hne
    exact (hg f' hmem').grown hgrown.reachable hgrown₂

/-! ## Constructions -/

/-- A content passes the check of its field. -/
theorem Content.checkField_eq_ok (h : σ.Sound) (hsealed : σ.store.Sealed) (hd : σ.Content f d)
    (place : Path) : σ.store.checkField f d place = .ok () := by
  obtain ⟨-, ⟨ds, hds, hall⟩, -⟩ := hd
  refine Store.checkField_eq_ok_iff.mpr ⟨ds, hds, fun e he => ?_⟩
  obtain ⟨-, htype, hmade, -⟩ := hall e he
  exact (h.conformsFully hsealed htype hmade).trusting

/-- A content in its final form has nothing but constructed values in it if the content has, and no
list that is nothing but a hole. -/
theorem Content.settled {d' : Datum} (hσ : σ.Reachable) (hd : σ.Content f d)
    (hgrown : σ.Grown σ') (h : Construct.Settles σ.store σ'.store f d d') :
    σ'.store.Constructed d' ∧ σ'.store.Solid d' := by
  obtain ⟨hhas, ⟨ds, hds, hall⟩, hne⟩ := hd
  have helement (e : Datum) (he : e ∈ ds) : σ'.store.Constructed e ∧ σ'.store.Solid e :=
    have hoffers := (hall e he).grown hσ hgrown
    ⟨hoffers.constructed, hoffers.solid⟩
  unfold Construct.Settles at h
  unfold Store.elements? at hds
  cases hm : f.multiplicity <;> simp only [hm] at h hds
  case single =>
    obtain rfl := Option.some.inj hds
    exact h ▸ helement d List.mem_cons_self
  case optional =>
    obtain rfl := Option.some.inj hds
    split at h
    next =>
      have hobject : ∀ r, Datum.absent ≠ .object r := fun r hr => by cases hr
      exact h ▸ ⟨.of_ne_object hobject, .of_ne_object hobject⟩
    next hempty =>
      rw [if_neg hempty] at helement
      exact h ▸ helement d List.mem_cons_self
  case repeated =>
    obtain ⟨l, rfl, hl⟩ := h
    obtain ⟨items, hitems, rfl⟩ := Option.map_eq_some_iff.mp hds
    rw [hitems, Option.getD_some] at hl
    refine ⟨.of_get? hl (fun hvalue => ?_) fun e he => (helement e he).1,
      .of_get? hl (fun frozen heq => ?_) fun e he => (helement e he).2⟩
    · rw [Store.isValue, Store.view?_eq_none_of_list? (Store.list?_of_get? hl)] at hvalue
      cases hvalue
    · exact hne (hitems.trans (congrArg some (Node.list.inj heq).2))

/-- A construction that is given contents makes a value of the type and the alternative, in which
the contents have their final form. -/
theorem Reachable.exists_construct (h : σ.Reachable) (hmem : m ∈ σ.models) (hm : m.Sound next)
    (ht : t ∈ m.types) (hc : t.Alternative c) {g : Field → Datum}
    (hg : ∀ f ∈ Construct.declared t c, σ.Content f (g f)) :
    ∃ σ' r fields, σ.Grown σ' ∧ σ'.store.HasBuilt r ⟨t, c, fields⟩ ∧
      σ'.Offers (.declared t.key) (.object r) ∧ ∀ f ∈ Construct.declared t c,
        Construct.Settles σ.store σ'.store f (g f) (contentAt fields f.index) := by
  have hchecked (f : Field) (hf : f ∈ Construct.declared t c) (place : Path) :=
    (hg f hf).checkField_eq_ok h.sound h.sealed place
  have hdata : ∀ d ∈ (Inputs.positional ((Construct.declared t c).map g)).data, σ.Has d :=
    List.forall_mem_map.mpr fun f hf => (hg f hf).has
  obtain ⟨r, s', fields, hmade, hgrows, hr, hcontents⟩ := Store.exists_construct_eq_ok
    (hm.getType_id ht) (Construct.constructor_name (hm.distinct t ht) hc) hchecked
    fun f hf => (hg f hf).has.holds
  let σ' : Session := { σ with store := s' }
  have hgrown : σ.Grown σ' := ⟨h.call (.construct hmem hdata hmade), rfl, hgrows⟩
  have hnumbered := (hc.isOf fields).numbered (h.sound.numbered (mem_types hmem ht))
  have hsettled : ∀ d ∈ fields, σ'.store.Constructed d ∧ σ'.store.Solid d := by
    intro d hd
    obtain ⟨f, hf, hsettles⟩ := Outcome.exists_of_mem_right hcontents hd
    exact (hg f hf).settled h hgrown hsettles
  have hoffers : σ'.Offers (.declared t.key) (.object r) :=
    ⟨hr.lt_size, hgrown.reachable.sealed.hasType_of_hasBuilt hr,
      .of_hasBuilt hr fun d hd => (hsettled d hd).1, .of_hasBuilt hr fun d hd => (hsettled d hd).2⟩
  exact ⟨σ', r, fields, hgrown, hr, hoffers, fun f hf =>
    hnumbered.contentAt_of_forall₂ hcontents hf⟩

/-- Of one type and alternative two values with contents of their own can be made. -/
theorem Reachable.exists_construct_pair (h : σ.Reachable) (hmem : m ∈ σ.models)
    (hm : m.Sound next) (ht : t ∈ m.types) (hc : t.Alternative c) {g g' : Field → Datum}
    (hg : ∀ f ∈ Construct.declared t c, σ.Content f (g f))
    (hg' : ∀ f ∈ Construct.declared t c, σ.Content f (g' f)) :
    ∃ σ' r r' fields fields', σ.Grown σ' ∧
      σ'.store.HasBuilt r ⟨t, c, fields⟩ ∧ σ'.store.HasBuilt r' ⟨t, c, fields'⟩ ∧
      σ'.Offers (.declared t.key) (.object r) ∧ σ'.Offers (.declared t.key) (.object r') ∧
      ∀ f ∈ Construct.declared t c,
        Construct.Settles σ.store σ'.store f (g f) (contentAt fields f.index) ∧
        Construct.Settles σ.store σ'.store f (g' f) (contentAt fields' f.index) := by
  obtain ⟨σ₁, r, fields, hgrown, hr, hoffers, hsettles⟩ := h.exists_construct hmem hm ht hc hg
  obtain ⟨σ₂, r', fields', hgrown', hr', hoffers', hsettles'⟩ :=
    hgrown.reachable.exists_construct (hgrown.models ▸ hmem) hm ht hc fun f hf =>
      (hg' f hf).grown h hgrown
  refine ⟨σ₂, r, r', fields, fields', hgrown.trans hgrown', hgrown'.grows.hasBuilt hr, hr',
    hoffers.grown hgrown.reachable hgrown', hoffers', fun f hf => ⟨?_, ?_⟩⟩
  · exact (hsettles f hf).extends hgrown'.grows
  · exact (hsettles' f hf).of_extends hgrown.grows (hg' f hf).has.holds

/-! ## Types of the model -/

/-- Data of every type that has a value can be made. -/
theorem available (hm : m.Sound next) (hvalue : type.HasValue m.types) : Available m type := by
  refine hvalue.induct (P := fun type => Available m type) (fun p σ hσ hmem => ?_)
    fun t c ht hc hfields σ hσ hmem => ?_
  · obtain ⟨d, hd⟩ := p.exists_accepts
    have hobject := Store.ne_object_of_accepts hd
    refine ⟨σ, d, .refl hσ, ?_, .primitive hd, .of_ne_object hobject, .of_ne_object hobject⟩
    rcases Primitive.of_accepts hd with ⟨-, _, rfl⟩ | ⟨-, _, rfl, -⟩ | ⟨-, _, rfl⟩ <;> trivial
  · obtain ⟨σ₁, g, hgrown, hg⟩ := hσ.exists_contents hmem hfields
    obtain ⟨σ₂, r, fields, hgrown₂, -, hoffers, -⟩ :=
      hgrown.reachable.exists_construct (hgrown.models ▸ hmem) hm ht hc hg
    exact ⟨σ₂, .object r, hgrown.trans hgrown₂, hoffers⟩

theorem available_of_field (hm : m.Sound next) (ht : t ∈ m.types) (hc : t.Alternative c)
    (hf : f ∈ Construct.declared t c) : Available m f.type := by
  cases hkey : f.type with
  | primitive p => exact available hm (TypeRef.hasValue_primitive p)
  | declared k =>
    obtain ⟨u, hu, rfl⟩ := hm.closed t ht k ⟨c, hc, f, hf, hkey⟩
    exact available hm (hm.values u hu)

end Session

end Schemata
