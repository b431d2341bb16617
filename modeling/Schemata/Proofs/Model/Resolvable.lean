import Schemata.Proofs.Lists
import Schemata.Proofs.Model.Resolution
import Schemata.Proofs.Syntax.Grammar

/-!
# Which trees can be resolved

`SchemaTree.Resolvable` says when all names of a tree have a meaning over base modules: no module is
loaded already, no type has the name of a primitive type, and the type name of every field is that
of a primitive type or of a type declared in its own module, in an earlier module of the tree or in
a base module. A tree that gives no name twice in one place has definitions if and only if this is
so (`Resolve.exists_modules_eq_ok`), one definition for each declaration
(`Resolve.of_module_eq_ok`).
-/

namespace Schemata

/-- A name that a field of the module `m` may give for its type; `before` are the earlier modules of
the tree. -/
def Resolve.Known (base : List Module) (before : List ModuleDecl) (m : ModuleDecl)
    (name : String) : Prop :=
  (∃ p : Primitive, p.name = name) ∨ (∃ t ∈ m.types, t.name = name) ∨
    (∃ e ∈ before, ∃ t ∈ e.types, t.name = name) ∨ ∃ b ∈ base, ∃ t ∈ b.types, t.name = name

/-- All names of the modules have a meaning, behind the modules `before` of the tree. -/
def Resolve.Resolvable (base : List Module) : List ModuleDecl → List ModuleDecl → Prop
  | _, [] => True
  | before, m :: ms =>
    m.name ∉ base.map Module.name ∧ (∀ t ∈ m.types, ∀ p : Primitive, p.name ≠ t.name) ∧
    (∀ t ∈ m.types, ∀ f ∈ Resolve.bodyFields t.body, Resolve.Known base before m f.typeName) ∧
    Resolve.Resolvable base (before ++ [m]) ms

/-- All names of the tree have a meaning. -/
def SchemaTree.Resolvable (tree : SchemaTree) (base : List Module) : Prop :=
  Resolve.Resolvable base [] tree.modules

theorem Primitive.ofName?_eq_none {name : String} :
    Primitive.ofName? name = none ↔ ∀ p : Primitive, p.name ≠ name := by
  unfold ofName?
  rw [List.find?_eq_none]
  constructor
  · intro h p
    have hp : p ∈ all := by cases p <;> decide
    simpa using h p hp
  · exact fun h p _ => by simpa using h p

namespace Resolve

variable {scopes earlier text : List Scope} {base : List Module} {serial : Nat} {m : ModuleDecl}
  {ms before : List ModuleDecl} {name : String} {key : TypeKey}

/-! ## Scopes -/

theorem find_isSome :
    (find scopes name).isSome ↔ ∃ scope ∈ scopes, ∃ k ∈ scope, k.name = name := by
  unfold find Scope.find
  rw [List.findSome?_isSome_iff]
  simp only [List.find?_isSome, decide_eq_true_eq]

theorem of_find_eq_some (h : find scopes name = some key) :
    key.name = name ∧ ∃ scope ∈ scopes, key ∈ scope := by
  obtain ⟨scope, hscope, hfind⟩ := List.exists_of_findSome?_eq_some h
  exact ⟨by simpa using List.find?_some hfind, scope, hscope, List.mem_of_find?_eq_some hfind⟩

theorem mem_declaredScope :
    key ∈ declaredScope serial m ↔ ∃ t ∈ m.types, key = ⟨serial, m.name, t.name⟩ := by
  simp only [declaredScope, List.mem_map, List.mem_eraseDups]
  constructor
  · rintro ⟨_, ⟨t, ht, rfl⟩, rfl⟩
    exact ⟨t, ht, rfl⟩
  · rintro ⟨t, ht, rfl⟩
    exact ⟨_, ⟨t, ht, rfl⟩, rfl⟩

theorem mem_loadedScope {b : Module} : key ∈ loadedScope b ↔ ∃ t ∈ b.types, t.key = key := by
  simp only [loadedScope, List.mem_eraseDups, List.mem_map]

/-- `text` are the scopes of the modules `before`. -/
def ScopesOf (text : List Scope) (before : List ModuleDecl) : Prop :=
  List.Forall₂ (fun scope m => ∃ serial, scope = declaredScope serial m) text before

theorem ScopesOf.exists_iff (h : ScopesOf text before) :
    (∃ scope ∈ text, ∃ k ∈ scope, k.name = name) ↔ ∃ e ∈ before, ∃ t ∈ e.types, t.name = name := by
  constructor
  · rintro ⟨scope, hscope, k, hk, rfl⟩
    obtain ⟨e, he, serial, rfl⟩ := Outcome.exists_of_mem_left h hscope
    obtain ⟨t, ht, rfl⟩ := mem_declaredScope.mp hk
    exact ⟨e, he, t, ht, rfl⟩
  · rintro ⟨e, he, t, ht, rfl⟩
    obtain ⟨scope, hscope, serial, rfl⟩ := Outcome.exists_of_mem_right h he
    exact ⟨_, hscope, _, mem_declaredScope.mpr ⟨t, ht, rfl⟩, rfl⟩

theorem ScopesOf.concat (h : ScopesOf text before) (serial : Nat) (m : ModuleDecl) :
    ScopesOf (text ++ [declaredScope serial m]) (before ++ [m]) := by
  induction h with
  | nil => exact .cons ⟨serial, rfl⟩ .nil
  | cons hab _ ih => exact .cons hab ih

/-- A name has a meaning in a module if it is one that fields may give. -/
theorem meaning?_isSome (h : ScopesOf text before) :
    (meaning? (declaredScope serial m :: (text ++ base.map loadedScope)) name).isSome ↔
      Known base before m name := by
  unfold meaning? Known
  cases hp : Primitive.ofName? name with
  | some p =>
    have hname : p.name = name := by simpa using List.find?_some hp
    exact ⟨fun _ => .inl ⟨p, hname⟩, fun _ => rfl⟩
  | none =>
    have hnone : ¬∃ p : Primitive, p.name = name :=
      not_exists.mpr (Primitive.ofName?_eq_none.mp hp)
    have hown : (∃ k ∈ declaredScope serial m, k.name = name) ↔ ∃ t ∈ m.types, t.name = name := by
      simp only [mem_declaredScope]
      constructor
      · rintro ⟨_, ⟨t, ht, rfl⟩, rfl⟩
        exact ⟨t, ht, rfl⟩
      · rintro ⟨t, ht, rfl⟩
        exact ⟨_, ⟨t, ht, rfl⟩, rfl⟩
    have hbase : (∃ scope ∈ base.map loadedScope, ∃ k ∈ scope, k.name = name) ↔
        ∃ b ∈ base, ∃ t ∈ b.types, t.name = name := by
      simp only [List.mem_map, exists_exists_and_eq_and, mem_loadedScope]
      rfl
    simp only [Option.isSome_map, find_isSome, List.mem_cons, List.mem_append, or_and_right,
      exists_or, exists_eq_left, hown, h.exists_iff, hbase, hnone, false_or]

/-! ## Modules without repeated names -/

/-- A declaration that is the only one of its name is the one that counts. -/
theorem counts_eq_true (hnames : (m.types.map TypeDecl.name).Nodup) {decl : TypeDecl}
    (hdecl : decl ∈ m.types) : counts m decl = true := by
  have hfind : m.types.reverse.find? (·.name = decl.name) = some decl := by
    refine Outcome.find?_eq_some_of_unique (List.mem_reverse.mpr hdecl) (decide_eq_true rfl)
      fun other hother hname => ?_
    exact List.inj_on_of_nodup_map hnames (List.mem_reverse.mp hother) hdecl
      (of_decide_eq_true hname)
  unfold counts
  rw [hfind]
  obtain ⟨name, position, body⟩ := decl
  cases body <;> rfl

/-- Looking up the definition of every declaration by its name gives the definitions. -/
theorem filterMap_find_eq {decls : List TypeDecl} {defs : List TypeDef}
    (h : List.Forall₂ (fun decl t => t.name = decl.name) decls defs)
    (hnames : (decls.map TypeDecl.name).Nodup) :
    decls.filterMap (fun decl => defs.reverse.find? (·.name = decl.name)) = defs := by
  have hdefs : (defs.map TypeDef.name).Nodup := by
    rw [Outcome.map_eq_of_forall₂ h fun _ _ hname => hname]
    exact hnames
  have hfind : List.Forall₂ (fun decl t => defs.reverse.find? (·.name = decl.name) = some t)
      decls defs := by
    refine (Outcome.forall₂_and_mem h).imp fun decl t ⟨hname, ht⟩ => ?_
    refine Outcome.find?_eq_some_of_unique (List.mem_reverse.mpr ht) (decide_eq_true hname)
      fun other hother hname' => ?_
    exact List.inj_on_of_nodup_map hdefs (List.mem_reverse.mp hother) ht
      ((of_decide_eq_true hname').trans hname.symm)
  exact Outcome.filterMap_eq_of_forall₂ hfind

/-- Each declaration of a module has its definition. -/
theorem of_module_eq_ok (hnames : (m.types.map TypeDecl.name).Nodup) {made : Module}
    (h : module serial earlier m = .ok made) :
    made.serial = serial ∧ made.name = m.name ∧
      List.Forall₂ (fun decl t => DefinesType (declaredScope serial m :: earlier)
        ⟨serial, m.name, decl.name⟩ decl t) m.types made.types := by
  unfold module at h
  have hcounted : m.types.filter (counts m) = m.types :=
    List.filter_eq_self.mpr fun decl hdecl => counts_eq_true hnames hdecl
  split at h
  · cases h
  · dsimp only at h
    rw [hcounted] at h
    obtain ⟨defs, hdefs, h⟩ := Outcome.bind_eq_ok.mp h
    obtain rfl := Outcome.pure_eq_ok.mp h
    have hall := (Outcome.mapM_eq_ok.mp hdefs).imp fun _ _ => of_type_eq_ok
    have hname := hall.imp fun decl t ht => congrArg TypeKey.name ht.key_eq
    refine ⟨rfl, rfl, ?_⟩
    dsimp only
    rwa [filterMap_find_eq hname hnames]

/-- The types of a loaded module stand in its scope as they do in that of its declaration. -/
theorem loadedScope_of_module_eq_ok (hnames : (m.types.map TypeDecl.name).Nodup)
    {made : Module} (h : module serial earlier m = .ok made) :
    loadedScope made = declaredScope serial m := by
  have hkeys : made.types.map TypeDef.key =
      m.types.map fun decl => (⟨serial, m.name, decl.name⟩ : TypeKey) :=
    Outcome.map_eq_of_forall₂ (of_module_eq_ok hnames h).2.2 fun _ _ hdef => hdef.key_eq
  have hscope : (m.types.map fun decl => (⟨serial, m.name, decl.name⟩ : TypeKey)) =
      (m.types.map TypeDecl.name).map fun name => ⟨serial, m.name, name⟩ := by
    rw [List.map_map]
    rfl
  have hnodup : (made.types.map TypeDef.key).Nodup := by
    rw [hkeys, hscope]
    exact hnames.map fun _ _ heq => congrArg TypeKey.name heq
  rw [loadedScope, Lists.eraseDups_eq_self hnodup, hkeys, hscope, declaredScope,
    Lists.eraseDups_eq_self hnames]

/-- A definition is named like its declaration. -/
theorem typeNames_of_module_eq_ok (hnames : (m.types.map TypeDecl.name).Nodup) {made : Module}
    (h : module serial earlier m = .ok made) :
    made.types.map TypeDef.name = m.types.map TypeDecl.name :=
  Outcome.map_eq_of_forall₂ (of_module_eq_ok hnames h).2.2
    fun _ _ hdef => congrArg TypeKey.name hdef.key_eq

/-- A module has definitions if its types are not named like primitive types and the type names of
its fields mean something. -/
theorem exists_module_eq_ok (serial : Nat) (earlier : List Scope)
    (hnames : (m.types.map TypeDecl.name).Nodup) :
    (∃ made, module serial earlier m = .ok made) ↔
      (∀ t ∈ m.types, ∀ p : Primitive, p.name ≠ t.name) ∧
      ∀ t ∈ m.types, ∀ f ∈ bodyFields t.body,
        (meaning? (declaredScope serial m :: earlier) f.typeName).isSome := by
  have hcounted : m.types.filter (counts m) = m.types :=
    List.filter_eq_self.mpr fun decl hdecl => counts_eq_true hnames hdecl
  unfold module
  rw [hcounted]
  split
  next decl hfind =>
    have hprimitive := List.find?_some hfind
    constructor
    · rintro ⟨_, ⟨⟩⟩
    · rintro ⟨h, -⟩
      rw [Primitive.ofName?_eq_none.mpr (h decl (List.mem_of_find?_eq_some hfind))] at hprimitive
      cases hprimitive
  next hfind =>
    have hprimitive : ∀ t ∈ m.types, ∀ p : Primitive, p.name ≠ t.name := by
      intro t ht
      have hnone := List.find?_eq_none.mp hfind t ht
      exact Primitive.ofName?_eq_none.mp (by simpa using hnone)
    constructor
    · rintro ⟨made, h⟩
      obtain ⟨defs, hdefs, -⟩ := Outcome.bind_eq_ok.mp h
      refine ⟨hprimitive, fun t ht => ?_⟩
      obtain ⟨d, -, hd⟩ := Outcome.exists_of_mem_left (Outcome.mapM_eq_ok.mp hdefs) ht
      exact (exists_type_eq_ok _).mp ⟨d, hd⟩
    · rintro ⟨-, h⟩
      have hdefs : ∃ defs, m.types.mapM (fun decl => type (declaredScope serial m :: earlier)
          ⟨serial, m.name, decl.name⟩ decl) = .ok defs :=
        Outcome.exists_mapM_eq_ok fun t ht => (exists_type_eq_ok _).mpr (h t ht)
      obtain ⟨defs, hdefs⟩ := hdefs
      dsimp only
      rw [hdefs]
      exact ⟨_, rfl⟩

/-! ## Trees -/

/-- The modules of a tree without repeated names have definitions if and only if all their names
have a meaning. -/
theorem exists_modules_eq_ok (serial : Nat) (hms : ∀ m ∈ ms, (m.types.map TypeDecl.name).Nodup)
    (htext : ScopesOf text before) :
    (∃ resolved, modules base serial text ms = .ok resolved) ↔ Resolvable base before ms := by
  induction ms generalizing serial text before with
  | nil => exact ⟨fun _ => trivial, fun _ => ⟨_, rfl⟩⟩
  | cons m ms ih =>
    obtain ⟨hm, hms⟩ := List.forall_mem_cons.mp hms
    have hmodule := exists_module_eq_ok serial (text ++ base.map loadedScope) hm
    have hrest := ih (serial + 1) hms (htext.concat serial m)
    constructor
    · rintro ⟨resolved, h⟩
      obtain ⟨hname, made, rest, hmade, hmodules, -⟩ := of_modules_cons_eq_ok h
      obtain ⟨hprimitive, hfields⟩ := hmodule.mp ⟨made, hmade⟩
      exact ⟨hname, hprimitive, fun t ht f hf => (meaning?_isSome htext).mp (hfields t ht f hf),
        hrest.mp ⟨rest, hmodules⟩⟩
    · rintro ⟨hname, hprimitive, hfields, hresolvable⟩
      obtain ⟨rest, hmodules⟩ := hrest.mpr hresolvable
      obtain ⟨made, hmade⟩ := hmodule.mpr
        ⟨hprimitive, fun t ht f hf => (meaning?_isSome htext).mpr (hfields t ht f hf)⟩
      exact ⟨_, modules_cons_eq_ok.mpr ⟨hname, made, rest, hmade, hmodules, rfl⟩⟩

end Resolve

end Schemata
