import Schemata.Proofs.Declarations.Reading
import Schemata.Proofs.Value.Records
import Schemata.Proofs.Value.Spelling

/-!
# Plain views and interfaces

The plain view of a value has the shape of the interface that is declared for its constructor, or
for its type if it is a product: it has the properties of the interface and no others, `_type` holds
the name of the constructor unless one of its fields is named so too, and the property of each field
holds the view of the content of this very field (`Store.ElementView`, `Store.ContentView`).

Taking the plain view gives such a view (`Plain.contentView_of_fits`, `Plain.exists_properties`). Of
two views that hold the same data (`Plain.Same`) one can say that they are views of values which are
alike, as long as no constructor has a field named `_type` (`Store.ContentView.alike`).
-/

namespace Schemata

open Declarations (interfaceOf)

/-- The properties are those of the interface of the value. That of the tag holds the name of the
constructor, if no field takes its place, and that of each field its view. -/
structure Built.HasProperties (b : Built) (view : Field → Plain) (es : List (String × Plain)) :
    Prop where
  nodup : (es.map Prod.fst).Nodup
  names : ∀ name, name ∈ es.map Prod.fst ↔
    name ∈ (interfaceOf b.type b.constructor).properties.map Prod.fst
  tag : ∀ c, b.constructor = some c → (∀ f ∈ c.fields, f.name ≠ "_type") →
    ("_type", .text c.name) ∈ es
  fields : ∀ f ∈ Construct.declared b.type b.constructor, (f.name, view f) ∈ es

mutual

/-- `p` is the view of the element `d` of the type: a scalar itself, or the properties of a value
with the views of its contents. -/
inductive Store.ElementView (s : Store) : TypeRef → Datum → Plain → Prop
  | text (t : String) : s.ElementView (.primitive .string) (.text t) (.text t)
  | number {x : Number} : x.isSafeInteger = true →
    s.ElementView (.primitive .int) (.number x) (.number x)
  | bool (b : Bool) : s.ElementView (.primitive .bool) (.bool b) (.bool b)
  | value {r : Ref} {b : Built} {view : Field → Plain} {es : List (String × Plain)} :
    s.HasBuilt r b → b.HasProperties view es →
    (∀ f ∈ Construct.declared b.type b.constructor,
      s.ContentView f (b.shape.content f) (view f)) →
    s.ElementView (.declared b.type.key) (.object r) (.record es)

/-- `p` is the view of the content `d` of the field: null if an optional field is left out, a list
of views, with holes where there are holes, for a repeated field. -/
inductive Store.ContentView (s : Store) : Field → Datum → Plain → Prop
  | single {f : Field} {d : Datum} {p : Plain} : f.multiplicity = .single →
    s.ElementView f.type d p → s.ContentView f d p
  | absent {f : Field} : f.multiplicity = .optional → s.ContentView f .absent .null
  | present {f : Field} {d : Datum} {p : Plain} : f.multiplicity = .optional → d ≠ .absent →
    s.ElementView f.type d p → s.ContentView f d p
  | list {f : Field} {r : Ref} {items : List (Option Datum)} {ps : List (Option Plain)} :
    f.multiplicity = .repeated → s.get? r = some (.list true items) →
    items.map Option.isSome = ps.map Option.isSome →
    (∀ e p, (some e, some p) ∈ items.zip ps → s.ElementView f.type e p) →
    s.ContentView f (.object r) (.list ps)

end

/-- The same data: properties in any order, and integers as such. -/
inductive Plain.Same : Plain → Plain → Prop
  | refl (p : Plain) : Same p p
  | number {x y : Number} {n : Int} : x.toInt? = some n → y.toInt? = some n →
    Same (.number x) (.number y)
  | list {ps qs : List (Option Plain)} : List.Forall₂ (Option.Rel Same) ps qs →
    Same (.list ps) (.list qs)
  | record {es es' : List (String × Plain)} :
    (∀ name, name ∈ es.map Prod.fst ↔ name ∈ es'.map Prod.fst) →
    (∀ name p q, (name, p) ∈ es → (name, q) ∈ es' → Same p q) → Same (.record es) (.record es')

namespace Plain

variable {s : Store} {f : Field} {d : Datum} {p : Plain} {room : Nat} {b : Built}
  {P : TypeRef → Datum → Prop}

/-- The property that tells the constructor, if there is one. -/
def tag (c : Option Constructor) : List (String × Plain) :=
  c.toList.map fun c => ("_type", .text c.name)

theorem ofShape_eq (hc : b.type.Alternative b.constructor) (contents : List Plain) :
    ofShape b.shape contents = .record (Record.ofList (tag b.constructor ++
      (b.shape.fieldNames.zip contents).filter (·.1 ≠ "__proto__"))).entries := by
  obtain ⟨⟨key, position, shape⟩, c, fields⟩ := b
  cases hc with
  | product hshape =>
    obtain rfl := hshape
    rfl
  | sum hshape _ =>
    obtain rfl := hshape
    rfl

/-- The record of a value has the properties of its interface. -/
theorem exists_properties (hc : b.type.Alternative b.constructor) (hnamed : b.type.Named)
    (hdistinct : b.type.Distinct) (view : Field → Plain) :
    ∃ es, ofShape b.shape (b.shape.declared.map view) = .record es ∧ b.HasProperties view es := by
  have hzip : b.shape.fieldNames.zip (b.shape.declared.map view) =
      b.shape.declared.map fun f => (f.name, view f) := List.zip_map'
  have hkept : (b.shape.declared.map fun f => (f.name, view f)).filter (·.1 ≠ "__proto__") =
      b.shape.declared.map fun f => (f.name, view f) := by
    refine List.filter_eq_self.mpr (List.forall_mem_map.mpr fun f hf => decide_eq_true ?_)
    rintro (hname : f.name = "__proto__")
    exact hnamed.unreserved _ hc f hf (hname ▸ by decide)
  have hnames : (b.shape.declared.map fun f => (f.name, view f)).map Prod.fst =
      b.shape.declared.map Field.name := List.map_map
  have hnodup : ((b.shape.declared.map fun f => (f.name, view f)).map Prod.fst).Nodup :=
    hnames ▸ hdistinct.fields _ hc
  refine ⟨_, by rw [ofShape_eq hc, hzip, hkept], Record.nodup_ofList _, fun name => ?_,
    fun c hconstructor htag => ?_, fun f hf => ?_⟩
  · have hproperties : (interfaceOf b.type b.constructor).properties.map Prod.fst =
        (tag b.constructor).map Prod.fst ++ b.shape.declared.map Field.name := by
      cases hconstructor : b.constructor <;>
        simp [interfaceOf, tag, Built.shape, hconstructor, Construct.declared, Function.comp_def,
          Declarations.propertyOf]
    rw [hproperties, ← hnames, ← List.map_append]
    exact Record.mem_keys_ofList
  · refine (Record.mem_ofList_append hnodup).mpr (.inr ⟨?_, ?_⟩)
    · rw [hnames, Built.shape, hconstructor]
      intro hmem
      obtain ⟨f, hf, hname⟩ := List.mem_map.mp hmem
      exact htag f hf hname
    · rw [tag, hconstructor]
      exact List.mem_singleton_self _
  · exact (Record.mem_ofList_append hnodup).mpr (.inl (List.mem_map_of_mem hf))

/-- The plain datum of a content in its final form is its view, if those of its elements are
theirs. -/
theorem contentView_of_fits (h : s.Fits P f d) (hP : ∀ e, P f.type e → s.HasType f.type e ∧
      ∀ room p, ofDatum? s room e = some p → s.ElementView f.type e p)
    (hd : ofDatum? s room d = some p) : s.ContentView f d p := by
  unfold Store.Fits at h
  cases hm : f.multiplicity <;> simp only [hm] at h
  case single => exact .single hm ((hP d h).2 room p hd)
  case optional =>
    rcases h with rfl | h
    · cases room with
      | zero => cases hd
      | succ room =>
        obtain rfl := Option.some.inj hd
        exact .absent hm
    · obtain ⟨htype, hview⟩ := hP d h
      refine .present hm ?_ (hview room p hd)
      rintro rfl
      exact Bool.noConfusion (show true = false from htype.isEmpty_eq_false)
  case repeated =>
    obtain ⟨r, items, rfl, hr, hall⟩ := h
    cases room with
    | zero => cases hd
    | succ room =>
      rw [ofDatum?_of_list? (Store.list?_of_get? hr)] at hd
      obtain ⟨views, hviews, rfl⟩ := Option.map_eq_some_iff.mp hd
      obtain ⟨hgaps, hzip⟩ := Outcome.forall₂_rel_iff.mp (mapM_ofItem?_eq_some.mp hviews)
      exact .list hm hr hgaps fun e p hmem =>
        (hP e (hall e (List.of_mem_zip hmem).1)).2 room p (hzip e p hmem)

theorem Same.of_list {ps : List (Option Plain)} {q : Plain} (h : Same (.list ps) q) :
    ∃ qs, q = .list qs ∧ List.Forall₂ (Option.Rel Same) ps qs := by
  cases h with
  | refl _ =>
    refine ⟨ps, rfl, List.forall₂_same.mpr fun item _ => ?_⟩
    cases item with
    | none => exact .none
    | some p => exact .some (.refl p)
  | list h => exact ⟨_, rfl, h⟩

theorem Same.of_record {es : List (String × Plain)} {q : Plain} (h : Same (.record es) q)
    (hnodup : (es.map Prod.fst).Nodup) :
    ∃ es', q = .record es' ∧ ∀ name p p', (name, p) ∈ es → (name, p') ∈ es' → Same p p' := by
  cases h with
  | refl _ =>
    refine ⟨es, rfl, fun name p p' hp hp' => ?_⟩
    have heq := List.inj_on_of_nodup_map hnodup hp hp' rfl
    rw [(Prod.mk.inj heq).2]
    exact .refl p'
  | record _ h => exact ⟨_, rfl, h⟩

end Plain

namespace Store

variable {s : Store} {f : Field} {d d' : Datum} {p p' : Plain} {key : TypeKey}

theorem ElementView.of_declared (h : s.ElementView (.declared key) d p) :
    ∃ r b view es, d = .object r ∧ p = .record es ∧ s.HasBuilt r b ∧
      b.type.key = key ∧ b.HasProperties view es ∧
      ∀ f ∈ Construct.declared b.type b.constructor,
        s.ContentView f (b.shape.content f) (view f) := by
  cases h with
  | value hb hes hcontents => exact ⟨_, _, _, _, rfl, rfl, hb, rfl, hes, hcontents⟩

/-- Scalars of one type are alike if their views are the same. -/
theorem ElementView.alike_of_primitive {type : Primitive} (h : s.ElementView (.primitive type) d p)
    (h' : s.ElementView (.primitive type) d' p') (hsame : Plain.Same p p') : s.Alike d d' := by
  cases h <;> cases h' <;> cases hsame
  case number.number.number hx hy => exact .number hx hy
  all_goals exact .same fun r hr => by cases hr

theorem ElementView.not_same_null {type : TypeRef} (h : s.ElementView type d p) :
    ¬ Plain.Same .null p ∧ ¬ Plain.Same p .null := by
  cases h <;> refine ⟨?_, ?_⟩ <;> rintro ⟨⟩

/-- Contents whose views are the same are alike if their elements are. -/
theorem ContentView.alike {P : TypeRef → Datum → Prop} (h : s.ContentView f d p)
    (h' : s.ContentView f d' p') (hsame : Plain.Same p p') (hfits : s.Fits P f d)
    (halike : ∀ e, P f.type e → ∀ e' q q', s.ElementView f.type e q →
      s.ElementView f.type e' q' → Plain.Same q q' → s.Alike e e') : s.Alike d d' := by
  unfold Fits at hfits
  cases h with
  | single hm hd =>
    cases h' with
    | single _ hd' =>
      simp only [hm] at hfits
      exact halike _ hfits _ _ _ hd hd' hsame
    | absent hm' | present hm' | list hm' => cases hm.symm.trans hm'
  | absent hm =>
    cases h' with
    | absent _ => exact .same fun r hr => by cases hr
    | present _ _ hd' => exact absurd hsame hd'.not_same_null.1
    | single hm' | list hm' => cases hm.symm.trans hm'
  | present hm hne hd =>
    cases h' with
    | absent _ => exact absurd hsame hd.not_same_null.2
    | present _ _ hd' =>
      simp only [hm] at hfits
      exact halike _ (hfits.resolve_left hne) _ _ _ hd hd' hsame
    | single hm' | list hm' => cases hm.symm.trans hm'
  | list hm hr hgaps hitems =>
    cases h' with
    | list _ hr' hgaps' hitems' =>
      simp only [hm] at hfits
      obtain ⟨_, items, ⟨⟩, hr'', hall⟩ := hfits
      obtain rfl : items = _ := (Node.list.inj (Option.some.inj (hr''.symm.trans hr))).2
      obtain ⟨_, ⟨⟩, hps⟩ := hsame.of_list
      have hviews := Outcome.forall₂_rel_iff.mpr ⟨hgaps, hitems⟩
      have hviews' := Outcome.forall₂_rel_iff.mpr ⟨hgaps', hitems'⟩
      -- the views of the first list are those of the second one, item by item
      have hsames : List.Forall₂ (fun item q' => item ∈ items ∧ ∃ q,
          Option.Rel (s.ElementView f.type) item q ∧ Option.Rel Plain.Same q q') items _ :=
        Outcome.forall₂_of_common (Outcome.forall₂_mem_and hviews) hps.flip
          fun item q' q ⟨hitem, hview⟩ hsame => ⟨hitem, q, hview, hsame⟩
      refine .list hr hr' (Outcome.forall₂_of_common hsames hviews' ?_)
      rintro item item' q' ⟨hitem, q, hview, hsame⟩ hview'
      cases hview with
      | none =>
        cases hsame
        cases hview'
        exact .none
      | some hview =>
        cases hsame with
        | some hsame =>
          cases hview' with
          | some hview' => exact .some (halike _ (hall _ hitem) _ _ _ hview hview' hsame)
    | single hm' | absent hm' | present hm' => cases hm.symm.trans hm'

end Store

end Schemata
