import Schemata.Proofs.Declarations.Names
import Schemata.Proofs.Value.Views

/-!
# What written types mean

The declaration files of a model say which plain data is of a type. A name that stands in the file
of a module is that of a declaration in this file, or in the file that the name is imported from
(`Declarations.Resolves`), and what this declaration says of properties is meant in its own file.
This is the meaning that a type has which is written for a property (`Plain.Has`).

The names of scalars mean texts, numbers and truth values wherever they stand, and neither they nor
the names of other types without a declaration can be declared. A name that a file introduces twice
has no meaning.

In a model made by loads the name of a type that a module uses leads from the file of the module to
the declaration of the type (`Model.Reachable.resolves`), and from there, if it is a sum, to the
interfaces of its constructors (`Model.Reachable.has_of_interface`).
-/

namespace Schemata

namespace Declarations

/-- The names of types that have no declaration. -/
def predefined : List String :=
  ["any", "bigint", "boolean", "never", "null", "number", "object", "string", "symbol", "undefined",
    "unknown", "void"]

/-- In the file of the module `own` the name stands for one thing, which is declared in the file of
the module `home`. -/
structure Resolves (files : String → SourceFile) (own name home : String) : Prop where
  declared : name ∉ predefined
  once : (files own).names.count name = 1
  once_home : (files home).names.count name = 1
  way : home = own ∨ ∃ entry ∈ (files own).imports, entry.1 = home ∧ name ∈ entry.2

end Declarations

open Declarations

/-- The plain datum is of the type, as it is written in the file of the module `own`. A list has an
item at each index, and a record has the properties of the interface and no others. -/
inductive Plain.Has (files : String → SourceFile) : String → TypeExpr → Plain → Prop
  | literal {own text : String} : Has files own (.literal text) (.text text)
  | string {own text : String} : Has files own (.named "string" .single) (.text text)
  | number {own : String} {x : Number} : Has files own (.named "number" .single) (.number x)
  | boolean {own : String} {b : Bool} : Has files own (.named "boolean" .single) (.bool b)
  | null {own name : String} : Has files own (.named name .optional) .null
  | present {own name : String} {p : Plain} :
    Has files own (.named name .single) p → Has files own (.named name .optional) p
  | list {own name : String} {ps : List (Option Plain)} : none ∉ ps →
    (∀ p, some p ∈ ps → Has files own (.named name .single) p) →
    Has files own (.named name .repeated) (.list ps)
  | interface {own name home : String} {i : Interface} {es : List (String × Plain)} :
    Resolves files own name home → i ∈ (files home).interfaces → i.name = name →
    (es.map Prod.fst).Nodup → (∀ key, key ∈ es.map Prod.fst ↔ key ∈ i.properties.map Prod.fst) →
    (∀ key type p, (key, type) ∈ i.properties → (key, p) ∈ es → Has files home type p) →
    Has files own (.named name .single) (.record es)
  | member {own name home member : String} {u : Union} {p : Plain} :
    Resolves files own name home → u ∈ (files home).unions → u.name = name →
    member ∈ u.members → Has files home (.named member .single) p →
    Has files own (.named name .single) p

/-- The declaration files of the modules by their names. -/
def Model.files (m : Model) (name : String) : SourceFile :=
  ((m.getModule name).map fun M => SourceFile.ofText (moduleText M)).getD ⟨[], [], []⟩

/-- The declaration of the type says what is meant: it is not named like a type without a
declaration, no field takes the place of the tag, and the file introduces no name twice. -/
structure Model.Declares (m : Model) (t : TypeDef) : Prop where
  name : t.name ∉ predefined
  tag : ∀ c ∈ t.constructors, ∀ f ∈ c.fields, f.name ≠ "_type"
  names : ∀ M ∈ m.modules, t ∈ M.types → (SourceFile.ofText (moduleText M)).names.Nodup

namespace Declarations

/-- The interface of a constructor has no name of a type without a declaration. -/
theorem interfaceName_notMem_predefined (t : TypeDef) (c : Constructor) :
    interfaceName t c ∉ predefined := fun hmem => by
  have hplain : ∀ name ∈ predefined, '_' ∉ name.toList := by decide
  have hjoined := hplain _ hmem
  simp [toList_interfaceName] at hjoined

end Declarations

namespace Model

variable {m : Model} {next : Nat} {M M' : Module} {t : TypeDef} {c : Option Constructor}
  {own : String}

theorem Sound.files_name (h : m.Sound next) (hM : M ∈ m.modules) :
    m.files M.name = SourceFile.ofText (moduleText M) := by
  rw [files, h.getModule_name hM]
  rfl

/-- The interface of an alternative stands in the file of the module of the type, which introduces
its name. -/
theorem Reachable.interface_mem (h : m.Reachable next) (hM : M ∈ m.modules) (ht : t ∈ M.types)
    (hc : t.Alternative c) : interfaceOf t c ∈ (SourceFile.ofText (moduleText M)).interfaces := by
  rw [ofText_moduleText (h.worded hM)]
  exact List.mem_flatMap.mpr ⟨t, ht, List.mem_map_of_mem (mem_alternatives.mpr hc)⟩

/-- The name of a type that a module uses leads to the declaration of the type, if both files
introduce no name twice. -/
theorem Reachable.resolves (h : m.Reachable next) (hM : M ∈ m.modules) (hk : M.Uses t.key)
    (hM' : M' ∈ m.modules) (ht : t ∈ M'.types) (hname : t.name ∉ predefined)
    (hnodup : (SourceFile.ofText (moduleText M)).names.Nodup)
    (hnodup' : (SourceFile.ofText (moduleText M')).names.Nodup) :
    Resolves m.files M.name t.name M'.name := by
  have hmodule : t.key.module = M'.name := ((h.sound.modules M' hM').1.key t ht).2
  have hcount {N : Module} (hN : N ∈ m.modules) (huses : N.Uses t.key)
      (hnodup : (SourceFile.ofText (moduleText N)).names.Nodup) :
      (m.files N.name).names.count t.name = 1 := by
    rw [h.sound.files_name hN]
    refine List.count_eq_one_of_mem hnodup ((names_ofText_perm (h.worded hN)).mem_iff.mpr ?_)
    exact List.mem_append_left _ ((h.mem_usedNames_iff hN).mpr ⟨t.key, huses, rfl⟩)
  refine ⟨hname, hcount hM hk hnodup, hcount hM' ⟨t, ht, .inl rfl⟩ hnodup', ?_⟩
  rcases h.own_or_imported hM hk with ⟨t', ht', hkey⟩ | ⟨-, entry, hentry, heq, hmem⟩
  · exact .inl (hmodule.symm.trans
      ((congrArg TypeKey.module hkey).symm.trans ((h.sound.modules M hM).1.key t' ht').2))
  · refine .inr ⟨entry, ?_, heq.trans hmodule, hmem⟩
    rwa [h.sound.files_name hM, ofText_moduleText (h.worded hM)]

/-- Where the name of a type leads to its declaration, a record is of the type if it has the
properties of the interface of an alternative, and each property the type that is written for it. -/
theorem Reachable.has_of_interface (h : m.Reachable next) (hM : M ∈ m.modules) (ht : t ∈ M.types)
    (hc : t.Alternative c) (hresolves : Resolves m.files own t.name M.name)
    (hnodup : (SourceFile.ofText (moduleText M)).names.Nodup) {es : List (String × Plain)}
    (hkeys : (es.map Prod.fst).Nodup)
    (hnames : ∀ key, key ∈ es.map Prod.fst ↔ key ∈ (interfaceOf t c).properties.map Prod.fst)
    (htypes : ∀ key type p, (key, type) ∈ (interfaceOf t c).properties → (key, p) ∈ es →
      Plain.Has m.files M.name type p) :
    Plain.Has m.files own (.named t.name .single) (.record es) := by
  have hinterface := h.interface_mem hM ht hc
  rw [← h.sound.files_name hM] at hinterface
  cases hc with
  | product _ => exact .interface hresolves hinterface rfl hkeys hnames htypes
  | @sum cs attributes c hshape hc =>
    have hconstructor : c ∈ t.constructors := by rwa [TypeDef.constructors, hshape]
    have hmember : interfaceName t c ∈ t.constructors.map (interfaceName t) :=
      List.mem_map_of_mem hconstructor
    have hunion : ⟨t.name, t.constructors.map (interfaceName t)⟩ ∈ (m.files M.name).unions := by
      rw [h.sound.files_name hM, ofText_moduleText (h.worded hM)]
      refine List.mem_map_of_mem (List.mem_filter.mpr ⟨ht, decide_eq_true ?_⟩)
      rw [TypeDef.kind, hshape, TypeShape.kind]
    have hcount : (m.files M.name).names.count (interfaceName t c) = 1 := by
      rw [h.sound.files_name hM]
      refine List.count_eq_one_of_mem hnodup ((names_ofText_perm (h.worded hM)).mem_iff.mpr ?_)
      exact List.mem_append_right _ (mem_constructorNames.mpr ⟨t, ht, c, hconstructor, rfl⟩)
    exact .member hresolves hunion rfl hmember <| .interface
      ⟨interfaceName_notMem_predefined t c, hcount, hcount, .inl rfl⟩ hinterface rfl hkeys hnames
      htypes

end Model

/-! ## Views -/

namespace Store

variable {s : Store} {files : String → SourceFile} {own : String} {f : Field} {d : Datum}
  {p : Plain}

/-- The view of a content without holes has the type that is written for the field if the views of
its elements are of the type that is named there. -/
theorem ContentView.has {P : TypeRef → Datum → Prop} (h : s.ContentView f d p)
    (hfits : s.Fits P f d) (hwhole : ∀ items, s.list? d = some items → none ∉ items)
    (hP : ∀ e, P f.type e → ∀ q, s.ElementView f.type e q →
      Plain.Has files own (.named (typeText f.type) .single) q) :
    Plain.Has files own (.named (typeText f.type) f.multiplicity) p := by
  unfold Fits at hfits
  cases h with
  | single hm hd =>
    simp only [hm] at hfits
    exact hm ▸ hP _ hfits _ hd
  | absent hm => exact hm ▸ .null
  | present hm hne hd =>
    simp only [hm] at hfits
    exact hm ▸ .present (hP _ (hfits.resolve_left hne) _ hd)
  | list hm hr hgaps hitems =>
    simp only [hm] at hfits
    obtain ⟨_, items, ⟨⟩, hr', hall⟩ := hfits
    obtain rfl : items = _ := (Node.list.inj (Option.some.inj (hr'.symm.trans hr))).2
    have hviews := Outcome.forall₂_rel_iff.mpr ⟨hgaps, hitems⟩
    refine hm ▸ .list (fun hnone => ?_) fun q hq => ?_
    · obtain ⟨item, hitem, hrel⟩ := Outcome.exists_of_mem_right hviews hnone
      cases hrel
      exact hwhole _ (list?_of_get? hr) hitem
    · obtain ⟨item, hitem, hrel⟩ := Outcome.exists_of_mem_right hviews hq
      cases hrel with
      | some hview => exact hP _ (hall _ hitem) _ hview

end Store

/-- In the properties of a value each has the type that is written in the interface if the views of
the fields are of their types, and no field takes the place of the tag. -/
theorem Built.HasProperties.has {b : Built} {view : Field → Plain} {es : List (String × Plain)}
    {files : String → SourceFile} {own : String} (h : b.HasProperties view es)
    (htag : ∀ c, b.constructor = some c → ∀ f ∈ c.fields, f.name ≠ "_type")
    (hviews : ∀ f ∈ Construct.declared b.type b.constructor,
      Plain.Has files own (.named (typeText f.type) f.multiplicity) (view f))
    {key : String} {type : TypeExpr} {p : Plain}
    (htype : (key, type) ∈ (interfaceOf b.type b.constructor).properties) (hp : (key, p) ∈ es) :
    Plain.Has files own type p := by
  have hfield {f : Field} (hf : f ∈ Construct.declared b.type b.constructor)
      (heq : propertyOf f = (key, type)) : Plain.Has files own type p := by
    obtain ⟨rfl, rfl⟩ := Prod.mk.inj heq
    obtain ⟨-, rfl⟩ := Prod.mk.inj (List.inj_on_of_nodup_map h.nodup hp (h.fields f hf) rfl)
    exact hviews f hf
  cases hc : b.constructor with
  | none =>
    rw [hc] at htype
    obtain ⟨f, hf, heq⟩ := List.mem_map.mp htype
    exact hfield (by rwa [hc]) heq
  | some c =>
    rw [hc] at htype
    rcases List.mem_cons.mp htype with heq | htype
    · obtain ⟨rfl, rfl⟩ := Prod.mk.inj heq
      have hentry := h.tag c hc (htag c hc)
      obtain ⟨-, rfl⟩ := Prod.mk.inj (List.inj_on_of_nodup_map h.nodup hp hentry rfl)
      exact .literal
    · obtain ⟨f, hf, heq⟩ := List.mem_map.mp htype
      exact hfield (by rwa [hc]) heq

end Schemata
