import Schemata.Declarations
import Schemata.Proofs.Model.Representability
import Schemata.Proofs.Model.Resolvable

/-!
# Numbers of modules

The number of a module tells its types apart from those of a module of the same name in another
load. It has no influence on what is made of a declaration: with other numbers, given to the modules
by their names, resolution makes the same definitions with other numbers (`Resolve.module_renumber`)
and warns of the same (`Resolve.moduleWarnings_renumber`), and the generated declarations are the
same (`Declarations.moduleText_renumber`). Types keep their finite values
(`TypeRef.HasValue.renumber`), and have none that they did not have, where qualified names tell them
apart (`TypeRef.HasValue.of_renumber`).
-/

namespace Schemata

variable (number : String → Nat)

/-! ## Other numbers -/

def TypeKey.renumber (k : TypeKey) : TypeKey := { k with serial := number k.module }

def TypeRef.renumber : TypeRef → TypeRef
  | primitive p => primitive p
  | declared k => declared (k.renumber number)

def Field.renumber (f : Field) : Field := { f with type := f.type.renumber number }

def Constructor.renumber (c : Constructor) : Constructor :=
  { c with owner := c.owner.renumber number, fields := c.fields.map (Field.renumber number) }

def TypeShape.renumber : TypeShape → TypeShape
  | product fields => product (fields.map (Field.renumber number))
  | sum constructors attributes =>
    sum (constructors.map (Constructor.renumber number)) (attributes.map (Field.renumber number))

/-- The definition with other numbers for all modules, in its own key and in those of the types that
its fields refer to. -/
def TypeDef.renumber (t : TypeDef) : TypeDef :=
  ⟨t.key.renumber number, t.position, t.shape.renumber number⟩

def Module.renumber (M : Module) : Module :=
  ⟨number M.name, M.name, M.types.map (TypeDef.renumber number)⟩

@[simp] theorem TypeKey.id_renumber (k : TypeKey) : (k.renumber number).id = k.id := rfl

@[simp] theorem TypeRef.name_renumber (r : TypeRef) : (r.renumber number).name = r.name := by
  cases r <;> rfl

@[simp] theorem TypeDef.kind_renumber (t : TypeDef) : (t.renumber number).kind = t.kind := by
  obtain ⟨key, position, shape⟩ := t
  cases shape <;> rfl

@[simp] theorem TypeDef.constructors_renumber (t : TypeDef) :
    (t.renumber number).constructors = t.constructors.map (Constructor.renumber number) := by
  obtain ⟨key, position, shape⟩ := t
  cases shape <;> rfl

@[simp] theorem TypeDef.attributes_renumber (t : TypeDef) :
    (t.renumber number).attributes = t.attributes.map (Field.renumber number) := by
  obtain ⟨key, position, shape⟩ := t
  cases shape <;> rfl

@[simp] theorem TypeDef.fields_renumber (t : TypeDef) :
    (t.renumber number).fields = t.fields.map (Field.renumber number) := by
  obtain ⟨key, position, shape⟩ := t
  cases shape <;> rfl

@[simp] theorem TypeDef.simple_renumber (t : TypeDef) : (t.renumber number).simple = t.simple := by
  simp [TypeDef.simple, Constructor.renumber, Function.comp_def]

@[simp] theorem TypeDef.allFields_renumber (t : TypeDef) :
    (t.renumber number).allFields = t.allFields.map (Field.renumber number) := by
  obtain ⟨key, position, shape⟩ := t
  cases shape with
  | product fields => rfl
  | sum constructors attributes =>
    show (constructors.map (Constructor.renumber number)).flatMap Constructor.fields =
      (constructors.flatMap Constructor.fields).map (Field.renumber number)
    rw [List.flatMap_map, List.map_flatMap]
    rfl

/-! ## Resolution -/

namespace Resolve

variable (scopes earlier : List Scope) (m : ModuleDecl)

/-- Scopes with other numbers. -/
abbrev renumberAll (scopes : List Scope) : List Scope :=
  scopes.map (List.map (TypeKey.renumber number))

theorem renumberAll_cons (scope : Scope) : renumberAll number (scope :: scopes) =
    scope.map (TypeKey.renumber number) :: renumberAll number scopes := rfl

theorem renumberAll_concat (scope : Scope) : renumberAll number (scopes ++ [scope]) =
    renumberAll number scopes ++ [scope.map (TypeKey.renumber number)] := by
  rw [renumberAll, List.map_append, List.map_singleton]

theorem find_renumber (name : String) :
    find (renumberAll number scopes) name = (find scopes name).map (TypeKey.renumber number) := by
  unfold find
  induction scopes with
  | nil => rfl
  | cons scope scopes ih =>
    have hscope : Scope.find (scope.map (TypeKey.renumber number)) name =
        (Scope.find scope name).map (TypeKey.renumber number) := by
      rw [Scope.find, List.find?_map]
      rfl
    rw [renumberAll_cons, List.findSome?_cons, List.findSome?_cons, hscope]
    cases Scope.find scope name with
    | none => exact ih
    | some k => rfl

theorem suggest_renumber (name : String) :
    suggest (renumberAll number scopes) name = suggest scopes name := by
  have hnames : (renumberAll number scopes).flatMap (·.map TypeKey.name) =
      scopes.flatMap (·.map TypeKey.name) := by
    rw [renumberAll, List.flatMap_map]
    simp only [List.map_map]
    rfl
  simp only [suggest, hnames]

theorem typeRef_renumber (name path : String) (position : Position) :
    typeRef (renumberAll number scopes) name path position =
      (typeRef scopes name path position).map (TypeRef.renumber number) := by
  unfold typeRef
  rw [find_renumber, suggest_renumber]
  cases Primitive.ofName? name with
  | some p => rfl
  | none => cases find scopes name <;> rfl

theorem fields_renumber (owner : String) (shared : Bool) (index : Nat) (fs : List FieldDecl) :
    fields (renumberAll number scopes) owner shared index fs =
      (fields scopes owner shared index fs).map (List.map (Field.renumber number)) := by
  induction fs generalizing index with
  | nil => rfl
  | cons f fs ih =>
    unfold fields
    rw [typeRef_renumber, ih]
    cases typeRef scopes f.typeName (owner ++ "." ++ f.name) f.position with
    | error e => rfl
    | ok type => cases fields scopes owner shared (index + 1) fs <;> rfl

theorem sharedFields_renumber (own : Nat) (attributes : List Field) :
    sharedFields own (attributes.map (Field.renumber number)) =
      (sharedFields own attributes).map (Field.renumber number) := by
  rw [sharedFields, sharedFields, List.map_map, List.map_map]
  rfl

theorem constructors_renumber (key : TypeKey) (attributes : List Field) (tag : Nat)
    (cs : List ConstructorDecl) :
    constructors (renumberAll number scopes) (key.renumber number)
        (attributes.map (Field.renumber number)) tag cs =
      (constructors scopes key attributes tag cs).map (List.map (Constructor.renumber number)) := by
  induction cs generalizing tag with
  | nil => rfl
  | cons c cs ih =>
    unfold constructors
    rw [TypeKey.id_renumber, fields_renumber, ih]
    cases fields scopes (key.id ++ "." ++ c.name) false 0 c.fields with
    | error e => rfl
    | ok own =>
      cases constructors scopes key attributes (tag + 1) cs with
      | error e => rfl
      | ok rest =>
        show Except.ok _ = Except.ok _
        rw [List.length_map, sharedFields_renumber, ← List.map_append]
        rfl

theorem type_renumber (key : TypeKey) (decl : TypeDecl) :
    type (renumberAll number scopes) (key.renumber number) decl =
      (type scopes key decl).map (TypeDef.renumber number) := by
  unfold type
  rw [TypeKey.id_renumber]
  cases decl.body with
  | product own =>
    dsimp only
    rw [fields_renumber]
    cases fields scopes key.id false 0 own <;> rfl
  | sum cs shared =>
    dsimp only
    rw [fields_renumber]
    cases fields scopes key.id true 0 shared with
    | error e => rfl
    | ok attributes =>
      show (constructors (renumberAll number scopes) (key.renumber number)
        (attributes.map (Field.renumber number)) 0 cs >>= _) = _
      rw [constructors_renumber, Outcome.ok_bind]
      cases constructors scopes key attributes 0 cs <;> rfl

theorem declaredScope_renumber (serial : Nat) :
    declaredScope (number m.name) m =
      (declaredScope serial m).map (TypeKey.renumber number) := by
  rw [declaredScope, declaredScope, List.map_map]
  rfl

theorem module_renumber (serial : Nat) :
    module (number m.name) (renumberAll number earlier) m =
      (module serial earlier m).map (Module.renumber number) := by
  unfold module
  cases m.types.find? fun decl => (Primitive.ofName? decl.name).isSome with
  | some decl => rfl
  | none =>
    have htypes (decls : List TypeDecl) :
        (decls.mapM fun decl => type (declaredScope (number m.name) m :: renumberAll number earlier)
          ⟨number m.name, m.name, decl.name⟩ decl) =
        (decls.mapM fun decl => type (declaredScope serial m :: earlier)
          ⟨serial, m.name, decl.name⟩ decl).map (List.map (TypeDef.renumber number)) := by
      refine Outcome.mapM_map fun decl _ => ?_
      show _ = Except.map _ _
      rw [← type_renumber, renumberAll_cons, ← declaredScope_renumber]
      rfl
    dsimp only
    rw [htypes]
    cases (m.types.filter (counts m)).mapM fun decl => type (declaredScope serial m :: earlier)
        ⟨serial, m.name, decl.name⟩ decl with
    | error e => rfl
    | ok defs =>
      show Except.ok (Module.mk _ _ _) = Except.ok (Module.mk _ _ _)
      rw [List.map_filterMap]
      simp only [← List.map_reverse, List.find?_map]
      rfl

theorem moduleWarnings_renumber :
    moduleWarnings (renumberAll number earlier) m = moduleWarnings earlier m := by
  simp only [moduleWarnings, shadowWarnings, find_renumber, Option.map_map]
  rfl

end Resolve

/-! ## Finite values -/

namespace TypeDef.Alternative

theorem renumber {t : TypeDef} {c : Option Constructor} (h : t.Alternative c) :
    (t.renumber number).Alternative (c.map (Constructor.renumber number)) := by
  cases h with
  | product hshape => exact .product (by rw [TypeDef.renumber, hshape, TypeShape.renumber])
  | sum hshape hc =>
    exact .sum (by rw [TypeDef.renumber, hshape, TypeShape.renumber]) (List.mem_map_of_mem hc)

/-- The alternatives with other numbers are those of the type with other numbers. -/
theorem of_renumber {t : TypeDef} {c' : Option Constructor} (h : (t.renumber number).Alternative c') :
    ∃ c, t.Alternative c ∧ c' = c.map (Constructor.renumber number) := by
  obtain ⟨key, position, shape⟩ := t
  cases shape with
  | product fields =>
    cases h with
    | product _ => exact ⟨none, .product rfl, rfl⟩
    | sum hshape _ => cases hshape
  | sum constructors attributes =>
    cases h with
    | product hshape => cases hshape
    | sum hshape hc =>
      obtain ⟨rfl, -⟩ := TypeShape.sum.inj hshape
      obtain ⟨c, hmem, rfl⟩ := List.mem_map.mp hc
      exact ⟨some c, .sum rfl hmem, rfl⟩

end TypeDef.Alternative

theorem Construct.declared_renumber (t : TypeDef) (c : Option Constructor) :
    Construct.declared (t.renumber number) (c.map (Constructor.renumber number)) =
      (Construct.declared t c).map (Field.renumber number) := by
  cases c with
  | none => exact TypeDef.fields_renumber number t
  | some c => rfl

namespace TypeRef.HasValue

variable {number} {types : List TypeDef} {type : TypeRef}

theorem renumber (h : type.HasValue types) :
    (type.renumber number).HasValue (types.map (TypeDef.renumber number)) := by
  refine h.induct (P := fun type => (type.renumber number).HasValue _)
    TypeRef.hasValue_primitive fun t c ht hc hall => ?_
  refine TypeRef.hasValue_declared (List.mem_map_of_mem ht) (hc.renumber number) ?_
  rw [Construct.declared_renumber, List.forall_mem_map]
  exact hall

/-- Types that are told apart by their qualified names and refer to each other only have no other
values with other numbers. -/
theorem of_renumber
    (hunique : ∀ t ∈ types, ∀ t' ∈ types, t.key.renumber number = t'.key.renumber number → t = t')
    (hclosed : ∀ t ∈ types, ∀ c, t.Alternative c → ∀ f ∈ Construct.declared t c, ∀ k,
      f.type = .declared k → ∃ t' ∈ types, t'.key = k)
    {t : TypeDef} (ht : t ∈ types)
    (h : (TypeRef.declared (t.renumber number).key).HasValue
      (types.map (TypeDef.renumber number))) : (TypeRef.declared t.key).HasValue types := by
  have hall := h.induct (P := fun r => ∀ t ∈ types, r = .declared (t.renumber number).key →
    (TypeRef.declared t.key).HasValue types) (fun p t _ hr => by cases hr) ?_
  · exact hall t ht rfl
  intro t' c' ht' hc' hfields t ht hr
  obtain ⟨t', hmem, rfl⟩ := List.mem_map.mp ht'
  obtain rfl := hunique t' hmem t ht (TypeRef.declared.inj hr)
  obtain ⟨c, hc, rfl⟩ := TypeDef.Alternative.of_renumber number hc'
  rw [Construct.declared_renumber, List.forall_mem_map] at hfields
  refine TypeRef.hasValue_declared ht hc fun f hf hm => ?_
  cases hf' : f.type with
  | primitive p => exact TypeRef.hasValue_primitive p
  | declared k =>
    obtain ⟨t', ht', rfl⟩ := hclosed _ ht c hc f hf k hf'
    exact hfields f hf hm t' ht' (by rw [Field.renumber, hf']; rfl)

end TypeRef.HasValue

/-! ## Generated declarations -/

namespace Declarations

theorem fieldLine_renumber (f : Field) : fieldLine (f.renumber number) = fieldLine f := by
  have htext : typeText (f.renumber number).type = typeText f.type := by
    show typeText (f.type.renumber number) = _
    cases f.type with
    | primitive p => rfl
    | declared k => rfl
  rw [fieldLine, fieldLine, htext]
  rfl

theorem map_fieldLine_renumber (fs : List Field) :
    (fs.map (Field.renumber number)).map fieldLine = fs.map fieldLine := by
  rw [List.map_map]
  exact List.map_congr_left fun f _ => fieldLine_renumber number f

theorem constructorLines_renumber (t : TypeDef) (c : Constructor) :
    constructorLines (t.renumber number) (c.renumber number) = constructorLines t c := by
  simp only [constructorLines, Constructor.renumber, map_fieldLine_renumber]
  rfl

theorem typeLines_renumber (t : TypeDef) : typeLines (t.renumber number) = typeLines t := by
  obtain ⟨key, position, shape⟩ := t
  cases shape with
  | product fields =>
    show productLines _ (fields.map (Field.renumber number)) = productLines _ fields
    rw [productLines, map_fieldLine_renumber]
    rfl
  | sum constructors attributes =>
    show sumLines _ (constructors.map (Constructor.renumber number)) = sumLines _ constructors
    simp only [sumLines, List.flatMap_map, List.map_map]
    have hlines := constructorLines_renumber number ⟨key, position, .sum constructors attributes⟩
    simp only [hlines]
    rfl

theorem foreignTypes_renumber (M : Module) :
    foreignTypes (M.renumber number) = (foreignTypes M).map (TypeKey.renumber number) := by
  have hfields : (M.renumber number).types.flatMap TypeDef.allFields =
      (M.types.flatMap TypeDef.allFields).map (Field.renumber number) := by
    rw [Module.renumber, List.flatMap_map, List.map_flatMap]
    simp only [TypeDef.allFields_renumber]
  rw [foreignTypes, foreignTypes, hfields, List.filterMap_map, List.map_filterMap]
  refine List.filterMap_congr fun f _ => ?_
  obtain ⟨name, index, type, multiplicity, shared, position⟩ := f
  cases type with
  | primitive p => rfl
  | declared k =>
    show (if k.module = M.name then none else some (k.renumber number)) =
      (if k.module = M.name then none else some k).map (TypeKey.renumber number)
    split_ifs <;> rfl

theorem imports_renumber (M : Module) : imports (M.renumber number) = imports M := by
  simp only [imports, foreignTypes_renumber, List.map_map, List.filter_map]
  rfl

theorem moduleText_renumber (M : Module) : moduleText (M.renumber number) = moduleText M := by
  have htypes : (M.renumber number).types.flatMap (fun t => typeLines t ++ [""]) =
      M.types.flatMap fun t => typeLines t ++ [""] := by
    rw [Module.renumber, List.flatMap_map]
    simp only [typeLines_renumber]
  rw [moduleText, moduleText, moduleLines, moduleLines, imports_renumber, htypes]
  rfl

/-- The texts of modules do not depend on their numbers. -/
theorem texts_renumber (modules : List Module) :
    texts (modules.map (Module.renumber number)) = texts modules := by
  rw [texts, texts, List.filter_map, List.map_map]
  have hentry : (fun M : Module => (M.name, moduleText M)) ∘ Module.renumber number =
      fun M => (M.name, moduleText M) :=
    funext fun M => congrArg (Prod.mk M.name) (moduleText_renumber number M)
  rw [hentry]
  rfl

end Declarations

end Schemata
