import Schemata.Load
import Schemata.Proofs.Outcome

/-!
# What resolution makes

The definitions that `Resolve.modules` makes of a declaration tree, said declaration by declaration:
`Resolve.DefinesField`, `Resolve.DefinesConstructor` and `Resolve.DefinesType` relate a declaration
to its definition, which gives every name the meaning that it has in the scopes
(`Resolve.meaning?`). Fields and constructors are numbered by their places (`TypeDef.Numbered`).

Each module gets a number of its own, and the key of a type names its module by that number, so
within what one call makes a key belongs to one definition (`Module.Sound`).
-/

namespace Schemata

/-- The index of each field is its place. -/
def Field.Numbered (fs : List Field) : Prop := fs.map Field.index = List.range fs.length

/-- Fields and constructors are numbered by their places, and the constructors are the type's
own. -/
structure TypeDef.Numbered (t : TypeDef) : Prop where
  fields : Field.Numbered t.fields
  constructors : ∀ c ∈ t.constructors, Field.Numbered c.fields ∧ c.owner = t.key
  tags : t.constructors.map Constructor.tag = List.range t.constructors.length

/-- The types of a module carry its number and name, and a key belongs to one of them. -/
structure Module.Sound (m : Module) : Prop where
  key : ∀ t ∈ m.types, t.key.serial = m.serial ∧ t.key.module = m.name
  unique : ∀ t ∈ m.types, ∀ t' ∈ m.types, t.key = t'.key → t = t'
  numbered : ∀ t ∈ m.types, t.Numbered

/-- The types of a module have different names. -/
theorem Module.Sound.eq_of_name_eq {m : Module} (h : m.Sound) {t t' : TypeDef} (ht : t ∈ m.types)
    (ht' : t' ∈ m.types) (hname : t.name = t'.name) : t = t' := by
  obtain ⟨hserial, hmodule⟩ := h.key t ht
  obtain ⟨hserial', hmodule'⟩ := h.key t' ht'
  refine h.unique t ht t' ht' ?_
  have hname : t.key.name = t'.key.name := hname
  cases hk : t.key
  cases hk' : t'.key
  simp_all

theorem Field.Numbered.index_eq {fs : List Field} (h : Field.Numbered fs) {i : Nat} {f : Field}
    (hf : fs[i]? = some f) : f.index = i := by
  have hlt : i < fs.length := (List.getElem?_eq_some_iff.mp hf).1
  have hi : (fs.map Field.index)[i]? = (List.range fs.length)[i]? := by rw [h]
  rw [List.getElem?_map, hf, List.getElem?_range hlt] at hi
  exact Option.some.inj hi

namespace Resolve

variable {scopes : List Scope} {key : TypeKey} {owner : String} {shared : Bool}

/-- The type that a name means, if it means one. -/
def meaning? (scopes : List Scope) (name : String) : Option TypeRef :=
  match Primitive.ofName? name with
  | some p => some (.primitive p)
  | none => (find scopes name).map .declared

theorem typeRef_eq_ok {name path : String} {position : Position} {r : TypeRef} :
    typeRef scopes name path position = .ok r ↔ meaning? scopes name = some r := by
  unfold typeRef meaning?
  cases Primitive.ofName? name with
  | some p => simp
  | none => cases find scopes name <;> simp

/-! ## Fields -/

/-- `f` is the definition of a field, the index apart. -/
structure DefinesField (scopes : List Scope) (shared : Bool) (decl : FieldDecl) (f : Field) :
    Prop where
  name : f.name = decl.name
  type : meaning? scopes decl.typeName = some f.type
  multiplicity : f.multiplicity = decl.multiplicity
  shared : f.shared = shared
  position : f.position = decl.position

theorem of_fields_eq_ok {index : Nat} {fs : List FieldDecl} {defs : List Field}
    (h : fields scopes owner shared index fs = .ok defs) :
    List.Forall₂ (DefinesField scopes shared) fs defs ∧
      defs.map Field.index = List.range' index fs.length := by
  induction fs generalizing index defs with
  | nil =>
    obtain rfl := Except.ok.inj h
    exact ⟨.nil, rfl⟩
  | cons f fs ih =>
    obtain ⟨type, htype, h⟩ := Outcome.bind_eq_ok.mp h
    obtain ⟨rest, hrest, h⟩ := Outcome.bind_eq_ok.mp h
    obtain rfl := Outcome.pure_eq_ok.mp h
    obtain ⟨hdefs, hindex⟩ := ih hrest
    refine ⟨.cons ⟨rfl, typeRef_eq_ok.mp htype, rfl, rfl, rfl⟩ hdefs, ?_⟩
    rw [List.map_cons, hindex, List.length_cons, List.range'_succ]

/-- Fields have definitions if their type names mean something. -/
theorem exists_fields_eq_ok (owner : String) (shared : Bool) (index : Nat)
    {fs : List FieldDecl} :
    (∃ defs, fields scopes owner shared index fs = .ok defs) ↔
      ∀ f ∈ fs, (meaning? scopes f.typeName).isSome := by
  induction fs generalizing index with
  | nil => exact ⟨fun _ => by simp, fun _ => ⟨_, rfl⟩⟩
  | cons f fs ih =>
    rw [List.forall_mem_cons, ← ih (index + 1)]
    constructor
    · rintro ⟨defs, h⟩
      obtain ⟨type, htype, h⟩ := Outcome.bind_eq_ok.mp h
      obtain ⟨rest, hrest, -⟩ := Outcome.bind_eq_ok.mp h
      exact ⟨Option.isSome_iff_exists.mpr ⟨_, typeRef_eq_ok.mp htype⟩, rest, hrest⟩
    · rintro ⟨hf, rest, hrest⟩
      obtain ⟨type, htype⟩ := Option.isSome_iff_exists.mp hf
      unfold fields
      rw [typeRef_eq_ok.mpr htype, hrest]
      exact ⟨_, rfl⟩

/-- Attributes behind own fields go on with the numbers. -/
theorem numbered_append_sharedFields {own attributes : List Field} (hown : Field.Numbered own)
    (h : Field.Numbered attributes) :
    Field.Numbered (own ++ sharedFields own.length attributes) := by
  unfold Field.Numbered sharedFields at *
  rw [List.map_append, hown, List.length_append, List.length_map, List.range_add, List.map_map,
    ← h, List.map_map]
  rfl

/-! ## Constructors and types -/

/-- `c` is the definition of a constructor, the tag apart. -/
structure DefinesConstructor (scopes : List Scope) (key : TypeKey) (attributes : List Field)
    (decl : ConstructorDecl) (c : Constructor) : Prop where
  owner : c.owner = key
  name : c.name = decl.name
  position : c.position = decl.position
  fields : ∃ own, List.Forall₂ (DefinesField scopes false) decl.fields own ∧ Field.Numbered own ∧
    c.fields = own ++ sharedFields own.length attributes

theorem numbered_of_range' {fs : List FieldDecl} {defs : List Field}
    (h : fields scopes owner shared 0 fs = .ok defs) : Field.Numbered defs := by
  obtain ⟨hdefs, hindex⟩ := of_fields_eq_ok h
  rw [Field.Numbered, hindex, hdefs.length_eq, List.range_eq_range']

theorem of_constructors_eq_ok {attributes : List Field} {tag : Nat} {cs : List ConstructorDecl}
    {defs : List Constructor} (h : constructors scopes key attributes tag cs = .ok defs) :
    List.Forall₂ (DefinesConstructor scopes key attributes) cs defs ∧
      defs.map Constructor.tag = List.range' tag cs.length := by
  induction cs generalizing tag defs with
  | nil =>
    obtain rfl := Except.ok.inj h
    exact ⟨.nil, rfl⟩
  | cons c cs ih =>
    obtain ⟨own, hown, h⟩ := Outcome.bind_eq_ok.mp h
    obtain ⟨rest, hrest, h⟩ := Outcome.bind_eq_ok.mp h
    obtain rfl := Outcome.pure_eq_ok.mp h
    obtain ⟨hdefs, htags⟩ := ih hrest
    refine ⟨.cons ⟨rfl, rfl, rfl, own, (of_fields_eq_ok hown).1, numbered_of_range' hown, rfl⟩
      hdefs, ?_⟩
    rw [List.map_cons, htags, List.length_cons, List.range'_succ]

theorem exists_constructors_eq_ok (key : TypeKey) (attributes : List Field) (tag : Nat)
    {cs : List ConstructorDecl} :
    (∃ defs, constructors scopes key attributes tag cs = .ok defs) ↔
      ∀ c ∈ cs, ∀ f ∈ c.fields, (meaning? scopes f.typeName).isSome := by
  induction cs generalizing tag with
  | nil => exact ⟨fun _ => by simp, fun _ => ⟨_, rfl⟩⟩
  | cons c cs ih =>
    rw [List.forall_mem_cons, ← ih (tag + 1),
      ← exists_fields_eq_ok (key.id ++ "." ++ c.name) false 0]
    constructor
    · rintro ⟨defs, h⟩
      obtain ⟨own, hown, h⟩ := Outcome.bind_eq_ok.mp h
      obtain ⟨rest, hrest, -⟩ := Outcome.bind_eq_ok.mp h
      exact ⟨⟨own, hown⟩, rest, hrest⟩
    · rintro ⟨⟨own, hown⟩, rest, hrest⟩
      unfold constructors
      rw [hown, Outcome.ok_bind, hrest]
      exact ⟨_, rfl⟩

/-- `t` is the definition of a type. -/
inductive DefinesType (scopes : List Scope) (key : TypeKey) (decl : TypeDecl) :
    TypeDef → Prop
  | product {fs : List FieldDecl} {defs : List Field} :
    decl.body = .product fs → List.Forall₂ (DefinesField scopes false) fs defs →
    Field.Numbered defs → DefinesType scopes key decl ⟨key, decl.position, .product defs⟩
  | sum {cs : List ConstructorDecl} {shared : List FieldDecl} {defs : List Constructor}
      {attributes : List Field} :
    decl.body = .sum cs shared → List.Forall₂ (DefinesField scopes true) shared attributes →
    Field.Numbered attributes →
    List.Forall₂ (DefinesConstructor scopes key attributes) cs defs →
    defs.map Constructor.tag = List.range defs.length →
    DefinesType scopes key decl ⟨key, decl.position, .sum defs attributes⟩

/-- The fields that a body declares, constructor by constructor. -/
def bodyFields : TypeBody → List FieldDecl
  | .product fs => fs
  | .sum cs attributes => attributes ++ cs.flatMap ConstructorDecl.fields

theorem of_type_eq_ok {decl : TypeDecl} {t : TypeDef} (h : type scopes key decl = .ok t) :
    DefinesType scopes key decl t := by
  unfold type at h
  cases hbody : decl.body with
  | product fs =>
    simp only [hbody] at h
    obtain ⟨defs, hdefs, h⟩ := Outcome.bind_eq_ok.mp h
    obtain rfl := Outcome.pure_eq_ok.mp h
    exact .product hbody (of_fields_eq_ok hdefs).1 (numbered_of_range' hdefs)
  | sum cs shared =>
    simp only [hbody] at h
    obtain ⟨attributes, hattributes, h⟩ := Outcome.bind_eq_ok.mp h
    obtain ⟨defs, hdefs, h⟩ := Outcome.bind_eq_ok.mp h
    obtain rfl := Outcome.pure_eq_ok.mp h
    obtain ⟨hcs, htags⟩ := of_constructors_eq_ok hdefs
    refine .sum hbody (of_fields_eq_ok hattributes).1 (numbered_of_range' hattributes) hcs ?_
    rw [htags, hcs.length_eq, List.range_eq_range']

/-- A type has a definition if the type names of its fields mean something. -/
theorem exists_type_eq_ok (key : TypeKey) {decl : TypeDecl} :
    (∃ t, type scopes key decl = .ok t) ↔
      ∀ f ∈ bodyFields decl.body, (meaning? scopes f.typeName).isSome := by
  unfold type
  cases decl.body with
  | product fs =>
    rw [bodyFields, ← exists_fields_eq_ok key.id false 0]
    constructor
    · rintro ⟨t, h⟩
      obtain ⟨defs, hdefs, -⟩ := Outcome.bind_eq_ok.mp h
      exact ⟨defs, hdefs⟩
    · rintro ⟨defs, hdefs⟩
      simp only [hdefs]
      exact ⟨_, rfl⟩
  | sum cs shared =>
    simp only [bodyFields, List.forall_mem_append, List.forall_mem_flatMap]
    rw [← exists_fields_eq_ok key.id true 0]
    constructor
    · rintro ⟨t, h⟩
      obtain ⟨attributes, hattributes, h⟩ := Outcome.bind_eq_ok.mp h
      obtain ⟨defs, hdefs, -⟩ := Outcome.bind_eq_ok.mp h
      exact ⟨⟨attributes, hattributes⟩, (exists_constructors_eq_ok key attributes 0).mp ⟨defs, hdefs⟩⟩
    · rintro ⟨⟨attributes, hattributes⟩, hcs⟩
      obtain ⟨defs, hdefs⟩ := (exists_constructors_eq_ok key attributes 0).mpr hcs
      simp only [hattributes, Outcome.ok_bind, hdefs]
      exact ⟨_, rfl⟩

theorem DefinesType.key_eq {decl : TypeDecl} {t : TypeDef} (h : DefinesType scopes key decl t) :
    t.key = key := by
  cases h <;> rfl

theorem DefinesType.numbered {decl : TypeDecl} {t : TypeDef}
    (h : DefinesType scopes key decl t) : t.Numbered := by
  cases h with
  | product _ _ hdefs => exact ⟨hdefs, by simp [TypeDef.constructors], rfl⟩
  | sum _ _ hattributes hcs htags =>
    refine ⟨rfl, fun c hc => ?_, htags⟩
    obtain ⟨decl, -, hc⟩ := Outcome.exists_of_mem_right hcs hc
    obtain ⟨own, -, hown, hfields⟩ := hc.fields
    rw [hfields]
    exact ⟨numbered_append_sharedFields hown hattributes, hc.owner⟩

/-! ## Modules -/

theorem mem_module_types {serial : Nat} {earlier : List Scope} {m : ModuleDecl} {made : Module}
    (h : module serial earlier m = .ok made) :
    made.serial = serial ∧ made.name = m.name ∧ ∃ defs : List TypeDef,
      (∀ t ∈ defs, ∃ decl ∈ m.types,
        DefinesType (declaredScope serial m :: earlier) ⟨serial, m.name, decl.name⟩ decl t) ∧
      made.types = m.types.filterMap fun decl => defs.reverse.find? (·.name = decl.name) := by
  unfold module at h
  split at h
  · cases h
  · obtain ⟨defs, hdefs, h⟩ := Outcome.bind_eq_ok.mp h
    obtain rfl := Outcome.pure_eq_ok.mp h
    refine ⟨rfl, rfl, defs, fun t ht => ?_, rfl⟩
    obtain ⟨decl, hdecl, ht⟩ := Outcome.exists_of_mem_right (Outcome.mapM_eq_ok.mp hdefs) ht
    exact ⟨decl, (List.mem_filter.mp hdecl).1, of_type_eq_ok ht⟩

theorem modules_cons_eq_ok {base : List Module} {serial : Nat} {text : List Scope}
    {m : ModuleDecl} {ms : List ModuleDecl} {resolved : Resolved} :
    modules base serial text (m :: ms) = .ok resolved ↔
      m.name ∉ base.map Module.name ∧ ∃ made rest,
        module serial (text ++ base.map loadedScope) m = .ok made ∧
        modules base (serial + 1) (text ++ [declaredScope serial m]) ms = .ok rest ∧
        resolved = ⟨made :: rest.modules,
          moduleWarnings (text ++ base.map loadedScope) m ++ rest.warnings⟩ := by
  constructor
  · intro h
    unfold modules at h
    split_ifs at h with hname
    · cases h
    · obtain ⟨made, hmade, h⟩ := Outcome.bind_eq_ok.mp h
      obtain ⟨rest, hrest, h⟩ := Outcome.bind_eq_ok.mp h
      obtain rfl := Outcome.pure_eq_ok.mp h
      exact ⟨hname, made, rest, hmade, hrest, rfl⟩
  · rintro ⟨hname, made, rest, hmade, hrest, rfl⟩
    unfold modules
    rw [if_neg hname]
    simp only [hmade, hrest]
    rfl

theorem of_modules_cons_eq_ok {base : List Module} {serial : Nat} {text : List Scope}
    {m : ModuleDecl} {ms : List ModuleDecl} {resolved : Resolved}
    (h : modules base serial text (m :: ms) = .ok resolved) :
    m.name ∉ base.map Module.name ∧ ∃ made rest,
      module serial (text ++ base.map loadedScope) m = .ok made ∧
      modules base (serial + 1) (text ++ [declaredScope serial m]) ms = .ok rest ∧
      resolved.modules = made :: rest.modules := by
  obtain ⟨hname, made, rest, hmade, hrest, rfl⟩ := modules_cons_eq_ok.mp h
  exact ⟨hname, made, rest, hmade, hrest, rfl⟩

theorem module_sound {serial : Nat} {earlier : List Scope} {m : ModuleDecl} {made : Module}
    (h : module serial earlier m = .ok made) :
    made.Sound ∧ made.serial = serial ∧ made.name = m.name := by
  obtain ⟨hserial, hname, defs, hdefs, htypes⟩ := mem_module_types h
  have hmem : ∀ t ∈ made.types, t ∈ defs ∧ defs.reverse.find? (·.name = t.name) = some t := by
    intro t ht
    rw [htypes] at ht
    obtain ⟨decl, -, hfind⟩ := List.mem_filterMap.mp ht
    have hn : t.name = decl.name := by simpa using List.find?_some hfind
    exact ⟨List.mem_reverse.mp (List.mem_of_find?_eq_some hfind), by rwa [hn]⟩
  refine ⟨⟨fun t ht => ?_, fun t ht t' ht' hkey => ?_, fun t ht => ?_⟩, hserial, hname⟩
  · obtain ⟨decl, -, hdef⟩ := hdefs t (hmem t ht).1
    rw [hdef.key_eq, hserial, hname]
    exact ⟨rfl, rfl⟩
  · have hn : t.name = t'.name := congrArg TypeKey.name hkey
    have hfind := (hmem t ht).2
    rw [hn, (hmem t' ht').2] at hfind
    exact (Option.some.inj hfind).symm
  · obtain ⟨decl, -, hdef⟩ := hdefs t (hmem t ht).1
    exact hdef.numbered

/-- The modules made of a tree are numbered from `serial` on. -/
theorem modules_sound {base : List Module} {serial : Nat} {text : List Scope}
    {ms : List ModuleDecl} {resolved : Resolved} (h : modules base serial text ms = .ok resolved) :
    (∀ made ∈ resolved.modules, made.Sound) ∧
      resolved.modules.map Module.serial = List.range' serial resolved.modules.length := by
  induction ms generalizing serial text resolved with
  | nil =>
    obtain rfl := Except.ok.inj h
    exact ⟨by simp, rfl⟩
  | cons m ms ih =>
    obtain ⟨-, made, rest, hmade, hrest, hresolved⟩ := of_modules_cons_eq_ok h
    obtain ⟨hsound, hserial, -⟩ := module_sound hmade
    obtain ⟨hsounds, hserials⟩ := ih hrest
    rw [hresolved]
    refine ⟨List.forall_mem_cons.mpr ⟨hsound, hsounds⟩, ?_⟩
    rw [List.map_cons, hserial, hserials, List.length_cons, List.range'_succ]

theorem serial_of_modules_eq_ok {base : List Module} {serial : Nat} {text : List Scope}
    {ms : List ModuleDecl} {resolved : Resolved} (h : modules base serial text ms = .ok resolved)
    {M : Module} (hM : M ∈ resolved.modules) :
    serial ≤ M.serial ∧ M.serial < serial + resolved.modules.length := by
  have hmem : M.serial ∈ resolved.modules.map Module.serial := List.mem_map_of_mem hM
  rw [(modules_sound h).2, List.mem_range'_1] at hmem
  exact hmem

end Resolve

/-! ## Loads -/

theorem SchemaTree.resolve_eq_ok {tree : SchemaTree} {serial : Nat} {base : List Module}
    {resolved : Resolved} :
    tree.resolve serial base = .ok resolved ↔
      Resolve.modules base serial [] tree.modules = .ok resolved ∧
        Representable.check (resolved.modules.flatMap Module.types) = .ok () := by
  unfold resolve
  cases hmodules : Resolve.modules base serial [] tree.modules with
  | error e => simp
  | ok made =>
    simp only [Except.ok.injEq]
    constructor
    · intro h
      split at h
      · cases h
      · obtain rfl := Except.ok.inj h
        exact ⟨rfl, ‹_›⟩
    · rintro ⟨rfl, hcheck⟩
      rw [hcheck]

/-- A load succeeds if the tree has definitions that pass the check, and adds the modules made of
it. -/
theorem Model.loadTree_eq_ok {base : Model} {serial : Nat} {limit : Option Number}
    {tree : SchemaTree} {loaded : Loaded} :
    base.loadTree serial limit tree = .ok loaded ↔ ∃ resolved,
      Resolve.modules base.modules serial [] tree.modules = .ok resolved ∧
      Representable.check (resolved.modules.flatMap Module.types) = .ok () ∧
      loaded = ⟨⟨base.modules ++ resolved.modules, limit.getD base.maxPrintDepth⟩, resolved.modules,
        resolved.warnings⟩ := by
  simp only [← and_assoc, ← SchemaTree.resolve_eq_ok]
  unfold loadTree
  cases tree.resolve serial base.modules with
  | error e => cases e <;> simp
  | ok resolved => simp [eq_comm]

/-- A load that succeeds adds the modules of the tree. -/
theorem Model.of_loadTree_eq_ok {base : Model} {serial : Nat} {limit : Option Number}
    {tree : SchemaTree} {loaded : Loaded} (h : base.loadTree serial limit tree = .ok loaded) :
    tree.resolve serial base.modules = .ok ⟨loaded.modules, loaded.warnings⟩ ∧
      loaded.model.modules = base.modules ++ loaded.modules := by
  obtain ⟨resolved, hresolved, hcheck, rfl⟩ := loadTree_eq_ok.mp h
  exact ⟨SchemaTree.resolve_eq_ok.mpr ⟨hresolved, hcheck⟩, rfl⟩

/-- A text whose tree has definitions is loaded if these pass the check. -/
theorem Model.load_of_modules_eq_ok {base : Model} {serial : Nat} {source : String}
    {tree : SchemaTree} {resolved : Resolved} (hparse : SchemaTree.parse source = .ok tree)
    (h : Resolve.modules base.modules serial [] tree.modules = .ok resolved)
    (limit : Option Number) :
    base.load serial limit source =
      match Representable.check (resolved.modules.flatMap Module.types) with
      | .ok () => .ok ⟨⟨base.modules ++ resolved.modules, limit.getD base.maxPrintDepth⟩,
          resolved.modules, resolved.warnings⟩
      | .error e => .error (.cycle e) := by
  rw [load, hparse, Outcome.ok_bind, loadTree, SchemaTree.resolve, h]
  dsimp only
  cases Representable.check (resolved.modules.flatMap Module.types) <;> rfl

/-- An error of resolution that a load reports is that of its tree. -/
theorem Model.of_load_eq_resolution {base : Model} {serial : Nat} {limit : Option Number}
    {source : String} {tree : SchemaTree} {e : ResolutionError}
    (hparse : SchemaTree.parse source = .ok tree)
    (h : base.load serial limit source = .error (.resolution e)) :
    Resolve.modules base.modules serial [] tree.modules = .error e := by
  cases hmodules : Resolve.modules base.modules serial [] tree.modules with
  | error e' =>
    rw [load, hparse, Outcome.ok_bind, loadTree, SchemaTree.resolve, hmodules] at h
    rw [LoadError.resolution.inj (Except.error.inj h)]
  | ok resolved =>
    rw [load_of_modules_eq_ok hparse hmodules] at h
    split at h <;> cases h

/-- Where a load reports a cycle, its text has a tree with definitions, which do not pass the
check. -/
theorem Model.of_load_eq_cycle {base : Model} {serial : Nat} {limit : Option Number}
    {source : String} {e : CycleError} (h : base.load serial limit source = .error (.cycle e)) :
    ∃ tree resolved, SchemaTree.parse source = .ok tree ∧
      Resolve.modules base.modules serial [] tree.modules = .ok resolved ∧
      Representable.check (resolved.modules.flatMap Module.types) = .error e := by
  cases hparse : SchemaTree.parse source with
  | error e' =>
    rw [load, hparse] at h
    obtain rfl := Except.error.inj h
    unfold SchemaTree.parse at hparse
    split at hparse
    · cases hparse
    · split at hparse <;> cases hparse
  | ok tree =>
    cases hmodules : Resolve.modules base.modules serial [] tree.modules with
    | error e' =>
      rw [load, hparse, Outcome.ok_bind, loadTree, SchemaTree.resolve, hmodules] at h
      cases h
    | ok resolved =>
      rw [load_of_modules_eq_ok hparse hmodules] at h
      refine ⟨tree, resolved, rfl, hmodules, ?_⟩
      split at h
      next => cases h
      next hcheck =>
        obtain rfl := LoadError.cycle.inj (Except.error.inj h)
        exact hcheck

end Schemata
