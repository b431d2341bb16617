import Schemata.Proofs.Model.Denotation
import Schemata.Proofs.Syntax.Fields

/-!
# Definitions follow their declarations

Every declared type has one definition, in the order of the declarations, and this says of fields,
constructors and attributes what the declaration says, with type names read as `Module.Denotes` says
(`ModuleDecl.Follows`). Constructors and fields are numbered by their places, and named differently
where they stand together.

What resolution makes is known scope by scope (`Resolve.DefinesType`). Here the scopes are gone: a
tree that the parser returns is resolved like this if it is resolved at all, and never if a name
stands for nothing (`Model.Reachable.follows_of_resolve`).
-/

namespace Schemata

/-- The field is what is declared, its index apart; `denotes` tells what type names stand for. -/
structure FieldDecl.Follows (denotes : String → TypeRef → Prop) (shared : Bool) (decl : FieldDecl)
    (f : Field) : Prop where
  name : f.name = decl.name
  type : denotes decl.typeName f.type
  multiplicity : f.multiplicity = decl.multiplicity
  shared : f.shared = shared
  position : f.position = decl.position

/-- The constructor has the fields that it declares and behind them all attributes, with indices
that go on. -/
structure ConstructorDecl.Follows (denotes : String → TypeRef → Prop) (key : TypeKey)
    (attributes : List Field) (decl : ConstructorDecl) (c : Constructor) : Prop where
  owner : c.owner = key
  name : c.name = decl.name
  position : c.position = decl.position
  fields : ∃ own, List.Forall₂ (FieldDecl.Follows denotes false) decl.fields own ∧
    c.fields = own ++ attributes.map fun a => { a with index := own.length + a.index }
  numbered : Field.Numbered c.fields
  distinct : (c.fields.map Field.name).Nodup

/-- The parts of the definition of a type are those of its declaration, in order. -/
inductive TypeBody.Follows (denotes : String → TypeRef → Prop) (key : TypeKey) :
    TypeBody → TypeShape → Prop
  | product {decls : List FieldDecl} {fields : List Field} :
    List.Forall₂ (FieldDecl.Follows denotes false) decls fields → Field.Numbered fields →
    (fields.map Field.name).Nodup → TypeBody.Follows denotes key (.product decls) (.product fields)
  | sum {decls : List ConstructorDecl} {shared : List FieldDecl} {cs : List Constructor}
      {attributes : List Field} :
    List.Forall₂ (FieldDecl.Follows denotes true) shared attributes → Field.Numbered attributes →
    List.Forall₂ (ConstructorDecl.Follows denotes key attributes) decls cs →
    cs.map Constructor.tag = List.range cs.length → (cs.map Constructor.name).Nodup →
    TypeBody.Follows denotes key (.sum decls shared) (.sum cs attributes)

/-- `t` is the definition of the declared type; a sum is simple if neither a constructor of it nor
the type itself declares a field. -/
structure TypeDecl.Follows (denotes : String → TypeRef → Prop) (decl : TypeDecl) (t : TypeDef) :
    Prop where
  name : t.name = decl.name
  position : t.position = decl.position
  body : decl.body.Follows denotes t.key t.shape
  simple : ∀ cs shared, decl.body = .sum cs shared →
    (t.simple = true ↔ shared = [] ∧ ∀ c ∈ cs, c.fields = [])

/-- `M` has the definitions of the types that are declared in the module, in order; it stands behind
the modules `before` of its text. -/
structure ModuleDecl.Follows (base : Model) (before : List Module) (m : ModuleDecl) (M : Module) :
    Prop where
  name : M.name = m.name
  types : List.Forall₂ (TypeDecl.Follows (M.Denotes base before)) m.types M.types

namespace Resolve

variable {scopes : List Scope} {denotes : String → TypeRef → Prop} {shared : Bool} {key : TypeKey}
  {decl : TypeDecl} {t : TypeDef}

theorem follows_of_definesFields {decls : List FieldDecl} {fields : List Field}
    (h : List.Forall₂ (DefinesField scopes shared) decls fields)
    (hdenotes : ∀ f ∈ decls, ∀ r, meaning? scopes f.typeName = some r → denotes f.typeName r) :
    List.Forall₂ (FieldDecl.Follows denotes shared) decls fields :=
  (Outcome.forall₂_mem_and h).imp fun decl _ ⟨hdecl, hf⟩ =>
    ⟨hf.name, hdenotes decl hdecl _ hf.type, hf.multiplicity, hf.shared, hf.position⟩

/-- A sum is simple if no field is declared for it; as it has a constructor, one that is shared
would turn up in a constructor. -/
theorem DefinesType.simple_iff (h : DefinesType scopes key decl t) {cs : List ConstructorDecl}
    {attributes : List FieldDecl} (hbody : decl.body = .sum cs attributes) (hcs : cs ≠ []) :
    t.simple = true ↔ attributes = [] ∧ ∀ c ∈ cs, c.fields = [] := by
  cases h with
  | product hbody' _ _ => simp [hbody'] at hbody
  | @sum cs' shared defs fields hbody' hfields _ hdefs _ =>
    obtain ⟨rfl, rfl⟩ := TypeBody.sum.inj (hbody'.symm.trans hbody)
    have hempty : ∀ decl c, DefinesConstructor scopes key fields decl c →
        (c.fields = [] ↔ decl.fields = [] ∧ shared = []) := by
      intro decl c hc
      obtain ⟨own, hown, -, heq⟩ := hc.fields
      rw [heq, List.append_eq_nil_iff, sharedFields, List.map_eq_nil_iff, ← List.length_eq_zero_iff,
        ← hown.length_eq, List.length_eq_zero_iff, ← List.length_eq_zero_iff (l := fields),
        ← hfields.length_eq, List.length_eq_zero_iff]
    rw [TypeDef.simple, TypeDef.constructors, List.all_eq_true]
    simp only [List.isEmpty_iff]
    constructor
    · intro hall
      have hnone : ∀ c ∈ cs', c.fields = [] ∧ shared = [] := by
        intro decl hdecl
        obtain ⟨c, hc, hdef⟩ := Outcome.exists_of_mem_left hdefs hdecl
        exact (hempty decl c hdef).mp (hall c hc)
      obtain ⟨c, hc⟩ := List.exists_mem_of_ne_nil cs' hcs
      exact ⟨(hnone c hc).2, fun c hc => (hnone c hc).1⟩
    · rintro ⟨hshared, hall⟩ c hc
      obtain ⟨decl, hdecl, hdef⟩ := Outcome.exists_of_mem_right hdefs hc
      exact (hempty decl c hdef).mpr ⟨hall decl hdecl, hshared⟩

/-- A definition follows its declaration, if the names in it stand for what they mean. -/
theorem DefinesType.follows (h : DefinesType scopes key decl t) (hname : key.name = decl.name)
    (hdistinct : decl.body.Distinct) (hformed : decl.WellFormed)
    (hdenotes : ∀ f ∈ bodyFields decl.body, ∀ r, meaning? scopes f.typeName = some r →
      denotes f.typeName r) : decl.Follows denotes t where
  name := (congrArg TypeKey.name h.key_eq).trans hname
  position := h.position_eq
  simple cs shared hbody := h.simple_iff hbody (hformed.constructors cs shared hbody)
  body := by
    have hd := h.distinct hdistinct
    have hn := h.numbered
    cases h with
    | product hbody hfields hnumbered =>
      rw [hbody] at hdenotes ⊢
      exact .product (follows_of_definesFields hfields hdenotes) hnumbered
        (hd.fields none (.product rfl))
    | @sum cs shared defs attributes hbody hattributes hnumbered hcs htags =>
      rw [hbody] at hdenotes ⊢
      obtain ⟨hshared, hown⟩ := List.forall_mem_append.mp hdenotes
      refine .sum (follows_of_definesFields hattributes hshared) hnumbered ?_ htags hd.constructors
      have hmem := Outcome.forall₂_and_mem (Outcome.forall₂_mem_and hcs)
      refine hmem.imp fun decl c ⟨⟨hdecl, hdef⟩, hc⟩ => ?_
      obtain ⟨own, hfields, -, heq⟩ := hdef.fields
      refine ⟨hdef.owner, hdef.name, hdef.position, ⟨own, ?_, heq⟩, (hn.constructors c hc).1,
        hd.fields (some c) (.sum rfl hc)⟩
      exact follows_of_definesFields hfields fun f hf =>
        hown f (List.mem_flatMap.mpr ⟨decl, hdecl, hf⟩)

end Resolve

namespace Model

variable {base : Model} {next serial : Nat} {source : String} {tree : SchemaTree}

/-- Over a model made by loads, a tree that the parser returns and that is resolved has the
definitions that its declarations say. If the type name of a field stands for nothing, the text is
not loaded; and a load that is refused with an error of resolution finds a module that is loaded
already or a type that is named like a primitive one, or reports an unknown type of a field whose
type name stands for nothing. -/
theorem Reachable.follows_of_resolve (h : base.Reachable next)
    (hparse : SchemaTree.parse source = .ok tree) :
    (∀ resolved, tree.resolve serial base.modules = .ok resolved →
      resolved.modules.length = tree.modules.length ∧
      ∀ before m after, tree.modules = before ++ m :: after →
        ∃ made M rest, resolved.modules = made ++ M :: rest ∧ made.length = before.length ∧
          m.Follows base made M) ∧
    (∀ before m after f path, tree.modules = before ++ m :: after → m.HasField f path →
      m.Unknown base before f.typeName → ∀ limit loaded,
        base.load serial limit source ≠ .ok loaded) ∧
    ∀ limit e, base.load serial limit source = .error (.resolution e) →
      (∃ m ∈ tree.modules, m.name ∈ base.modules.map Module.name ∧
        e = .moduleLoaded m.name m.position) ∨
      (∃ m ∈ tree.modules, ∃ decl ∈ m.types, (∃ p : Primitive, p.name = decl.name) ∧
        e = .primitiveRedefined m.name decl.name decl.position) ∨
      ∃ before m after f path suggestion, tree.modules = before ++ m :: after ∧
        m.HasField f path ∧ e = .unknownFieldType f.typeName path f.position suggestion ∧
        m.Unknown base before f.typeName := by
  have hdistinct := (SchemaTree.of_parse_eq_ok hparse).1
  have hformed := SchemaTree.wellFormed_of_parse_eq_ok hparse
  have hdot : ∀ m ∈ tree.modules, ∀ decl ∈ m.types, ∀ f ∈ Resolve.bodyFields decl.body,
      '.' ∉ f.typeName.toList := fun m hm decl hdecl f hf =>
    ((hformed m hm decl hdecl).typeNames f hf).isWord.dot_notMem
  refine ⟨fun resolved hresolve => ?_,
    fun before m after f path hsplit hf hunknown limit loaded hload => ?_, fun limit e hload => ?_⟩
  · obtain ⟨hresolved, -⟩ := SchemaTree.resolve_eq_ok.mp hresolve
    refine ⟨(Resolve.forall₂_of_modules_eq_ok hresolved).length_eq.symm,
      fun before m after hsplit => ?_⟩
    have hm : m ∈ tree.modules := hsplit ▸ List.mem_append_right _ List.mem_cons_self
    obtain ⟨made, M, rest, k, hmodules, hlength, hM⟩ :=
      Resolve.exists_module_of_split hdistinct.modules hresolved hsplit
    obtain ⟨-, hname, hdefs⟩ := Resolve.of_module_eq_ok (hdistinct.modules m hm).names hM
    refine ⟨made, M, rest, hmodules, hlength, hname, ?_⟩
    rw [← Resolve.loadedScope_of_module_eq_ok (hdistinct.modules m hm).names hM,
      List.nil_append] at hdefs
    refine (Outcome.forall₂_mem_and hdefs).imp fun decl t ⟨hdecl, hdef⟩ => ?_
    refine hdef.follows rfl ((hdistinct.modules m hm).bodies decl hdecl) (hformed m hm decl hdecl) ?_
    exact fun f hf r hr => h.sound.denotes_of_meaning? (hdot m hm decl hdecl f hf) hr
  · have hm : m ∈ tree.modules := hsplit ▸ List.mem_append_right _ List.mem_cons_self
    obtain ⟨decl, hdecl, hf⟩ := hf.exists_decl
    obtain ⟨tree', hparse', hresolved, -, -⟩ := of_load_eq_ok hload
    obtain rfl := Except.ok.inj (hparse.symm.trans hparse')
    have hresolvable := (Resolve.exists_modules_eq_ok serial
      (fun m hm => (hdistinct.modules m hm).names) .nil).mp ⟨_, hresolved⟩
    rw [hsplit] at hresolvable
    exact (unknown_iff (hdot m hm decl hdecl f hf)).mp hunknown (hresolvable.known decl hdecl f hf)
  · have herror := of_load_eq_resolution hparse hload
    refine (Resolve.of_modules_eq_error .nil herror).imp_right (Or.imp_right ?_)
    rintro ⟨before, m, after, f, path, suggestion, hsplit, hf, he, hknown⟩
    have hm : m ∈ tree.modules := hsplit ▸ List.mem_append_right _ List.mem_cons_self
    obtain ⟨decl, hdecl, hbody⟩ := hf.exists_decl
    exact ⟨before, m, after, f, path, suggestion, hsplit, hf, he,
      (unknown_iff (hdot m hm decl hdecl f hbody)).mpr hknown⟩

/-- `module n \x7b a = C(b x) | D attributes (a* y) \x7d` -/
def Sample.laterModule : ModuleDecl :=
  ⟨"n", ⟨1, 26⟩, [⟨"a", ⟨1, 37⟩, .sum
    [⟨"C", ⟨1, 41⟩, [⟨"x", "b", .single, ⟨1, 43⟩⟩]⟩, ⟨"D", ⟨1, 50⟩, []⟩]
    [⟨"y", "a", .repeated, ⟨1, 64⟩⟩]⟩]⟩

/-- `module m \x7b b = (int v) \x7d`, before it. -/
def Sample.earlierModule : ModuleDecl :=
  ⟨"m", ⟨1, 1⟩, [⟨"b", ⟨1, 12⟩, .product [⟨"v", "int", .single, ⟨1, 17⟩⟩]⟩]⟩

theorem Sample.parse_eq_earlier_later :
    SchemaTree.parse
        "module m \x7b b = (int v) \x7d module n \x7b a = C(b x) | D attributes (a* y) \x7d" =
      .ok ⟨[earlierModule, laterModule]⟩ := rfl

/-- The tree of `module m \x7b a = (b x) \x7d`. -/
def Sample.unknownModule : ModuleDecl :=
  ⟨"m", ⟨1, 1⟩, [⟨"a", ⟨1, 12⟩, .product [⟨"x", "b", .single, ⟨1, 17⟩⟩]⟩]⟩

theorem Sample.parse_eq_unknown :
    SchemaTree.parse "module m \x7b a = (b x) \x7d" = .ok ⟨[unknownModule]⟩ := rfl

theorem Sample.unknown_b : unknownModule.Unknown (.empty none) [] "b" where
  primitive p := by cases p <;> decide
  own := by decide
  earlier := by decide
  base := rfl

/-- A definition with a type of the module before it, and a name without a type. -/
theorem Reachable.follows_of_resolve_earlier :
    (Model.empty none).Reachable 0 ∧
    (∃ resolved made M rest,
      SchemaTree.resolve ⟨[Sample.earlierModule, Sample.laterModule]⟩ 0 [] = .ok resolved ∧
      resolved.modules = made ++ M :: rest ∧ Sample.laterModule.Follows (.empty none) made M) ∧
    ∀ loaded, (Model.empty none).load 0 none "module m \x7b a = (b x) \x7d" ≠ .ok loaded := by
  have hbase : (Model.empty none).Reachable 0 := .empty
  refine ⟨hbase, ?_, fun loaded => ?_⟩
  · obtain ⟨resolved, hresolved⟩ : ∃ resolved,
        SchemaTree.resolve ⟨[Sample.earlierModule, Sample.laterModule]⟩ 0 [] = .ok resolved :=
      ⟨_, rfl⟩
    obtain ⟨made, M, rest, hmodules, -, hfollows⟩ :=
      ((hbase.follows_of_resolve Sample.parse_eq_earlier_later).1 resolved hresolved).2
        [Sample.earlierModule] Sample.laterModule [] rfl
    exact ⟨resolved, made, M, rest, hresolved, hmodules, hfollows⟩
  · exact (hbase.follows_of_resolve Sample.parse_eq_unknown).2.1 [] Sample.unknownModule [] _ _ rfl
      (.product List.mem_cons_self rfl List.mem_cons_self) Sample.unknown_b none loaded

end Model

end Schemata
