import Schemata.Proofs.Model.Lookup
import Schemata.Proofs.Model.References
import Schemata.Proofs.Model.Representability
import Schemata.Proofs.Syntax.Parsing

/-!
# Models made by loads

`Model.Reachable` holds of the models that are made by loading texts, one on top of the other, from
the model without modules. What all of them have in common is `Model.Sound`: modules are told apart
by their names and types by their qualified names, constructors and fields by their names where they
stand, references lead to types of the model, and every type has a finite value.

The last is what a load checks of its own types; for the others it relies on the loads before it.
-/

namespace Schemata

/-- No two constructors of the type have the same name, nor have two fields of one alternative. -/
structure TypeDef.Distinct (t : TypeDef) : Prop where
  constructors : (t.constructors.map Constructor.name).Nodup
  fields : ∀ c, t.Alternative c → ((Construct.declared t c).map Field.name).Nodup

/-- The module has the declared types, in their order and at their positions. -/
def ModuleDecl.Declares (m : ModuleDecl) (M : Module) : Prop :=
  M.name = m.name ∧
    List.Forall₂ (fun decl t => t.name = decl.name ∧ t.position = decl.position) m.types M.types

namespace Resolve

variable {scopes text : List Scope} {key k : TypeKey} {decl : TypeDecl} {t : TypeDef}
  {base : List Module} {serial : Nat} {ms : List ModuleDecl} {resolved : Resolved}

theorem names_of_fields {shared : Bool} {fs : List FieldDecl} {defs : List Field}
    (h : List.Forall₂ (DefinesField scopes shared) fs defs) :
    defs.map Field.name = fs.map FieldDecl.name :=
  Outcome.map_eq_of_forall₂ h fun _ _ hf => hf.name

theorem names_of_sharedFields (own : Nat) (attributes : List Field) :
    (sharedFields own attributes).map Field.name = attributes.map Field.name := by
  rw [sharedFields, List.map_map]
  rfl

/-- The fields of a product are named as declared, those of a constructor with the shared ones
behind its own. -/
theorem DefinesType.fieldNames (h : DefinesType scopes key decl t) {c : Option Constructor}
    (hc : t.Alternative c) :
    (∃ fs, decl.body = .product fs ∧
      (Construct.declared t c).map Field.name = fs.map FieldDecl.name) ∨
    ∃ cs shared cdecl, decl.body = .sum cs shared ∧ cdecl ∈ cs ∧
      (Construct.declared t c).map Field.name =
        cdecl.fields.map FieldDecl.name ++ shared.map FieldDecl.name := by
  cases h with
  | product hbody hdefs _ =>
    cases hc with
    | product _ => exact .inl ⟨_, hbody, names_of_fields hdefs⟩
    | sum hshape _ => cases hshape
  | sum hbody hattributes _ hcs _ =>
    cases hc with
    | product hshape => cases hshape
    | sum hshape hc =>
      obtain ⟨rfl, -⟩ := TypeShape.sum.inj hshape
      obtain ⟨cdecl, hcdecl, hdef⟩ := Outcome.exists_of_mem_right hcs hc
      obtain ⟨own, hfields, -, heq⟩ := hdef.fields
      refine .inr ⟨_, _, cdecl, hbody, hcdecl, ?_⟩
      rw [Construct.declared, heq, List.map_append, names_of_sharedFields, names_of_fields hfields,
        names_of_fields hattributes]

/-- A definition gives no name twice where its declaration does not. -/
theorem DefinesType.distinct (h : DefinesType scopes key decl t) (hd : decl.body.Distinct) :
    t.Distinct where
  constructors := by
    cases h with
    | product _ _ _ => exact List.nodup_nil
    | @sum cs _ defs _ hbody _ _ hcs _ =>
      rw [hbody] at hd
      show (defs.map Constructor.name).Nodup
      rw [Outcome.map_eq_of_forall₂ hcs fun _ _ hc => hc.name]
      exact hd.1
  fields c hc := by
    rcases h.fieldNames hc with ⟨fs, hbody, hnames⟩ | ⟨cs, shared, cdecl, hbody, hcdecl, hnames⟩
    · rw [hbody] at hd
      rw [hnames]
      exact hd
    · rw [hbody] at hd
      obtain ⟨-, hown, hshared, hdisjoint⟩ := hd
      rw [hnames, List.nodup_append]
      refine ⟨hown cdecl hcdecl, hshared, fun x hx y hy hxy => ?_⟩
      obtain ⟨a, ha, rfl⟩ := List.mem_map.mp hy
      exact hdisjoint cdecl hcdecl a ha (hxy ▸ hx)

/-! ## Modules of a tree -/

theorem forall₂_of_modules_eq_ok (h : modules base serial text ms = .ok resolved) :
    List.Forall₂ (fun m made => ∃ serial earlier, module serial earlier m = .ok made) ms
      resolved.modules := by
  induction ms generalizing serial text resolved with
  | nil =>
    obtain rfl := Except.ok.inj h
    exact .nil
  | cons m ms ih =>
    obtain ⟨-, made, rest, hmade, hrest, heq⟩ := of_modules_cons_eq_ok h
    rw [heq]
    exact .cons ⟨_, _, hmade⟩ (ih hrest)

theorem DefinesType.position_eq (h : DefinesType scopes key decl t) :
    t.position = decl.position := by
  cases h <;> rfl

theorem declares_of_module_eq_ok {earlier : List Scope} {m : ModuleDecl} {made : Module}
    (hm : m.Distinct) (h : module serial earlier m = .ok made) : m.Declares made := by
  obtain ⟨-, hname, hdefs⟩ := of_module_eq_ok hm.names h
  exact ⟨hname,
    hdefs.imp fun _ _ hdef => ⟨congrArg TypeKey.name hdef.key_eq, hdef.position_eq⟩⟩

/-- Each module of a tree has the types that are declared in it. -/
theorem declares_of_modules_eq_ok (hms : ∀ m ∈ ms, m.Distinct)
    (h : modules base serial text ms = .ok resolved) :
    List.Forall₂ ModuleDecl.Declares ms resolved.modules :=
  (Outcome.forall₂_mem_and (forall₂_of_modules_eq_ok h)).imp fun m _ ⟨hm, _, _, hmade⟩ =>
    declares_of_module_eq_ok (hms m hm) hmade

theorem names_of_modules_eq_ok (h : modules base serial text ms = .ok resolved) :
    resolved.modules.map Module.name = ms.map ModuleDecl.name :=
  Outcome.map_eq_of_forall₂ (forall₂_of_modules_eq_ok h) fun _ _ ⟨_, _, hmade⟩ =>
    (module_sound hmade).2.2

theorem distinct_of_modules_eq_ok (hms : ∀ m ∈ ms, m.Distinct)
    (h : modules base serial text ms = .ok resolved) :
    ∀ t ∈ resolved.modules.flatMap Module.types, t.Distinct := by
  intro t ht
  obtain ⟨made, hmade, ht⟩ := List.mem_flatMap.mp ht
  obtain ⟨m, hm, _, _, hmodule⟩ := Outcome.exists_of_mem_right (forall₂_of_modules_eq_ok h) hmade
  obtain ⟨-, -, hdefs⟩ := of_module_eq_ok (hms m hm).names hmodule
  obtain ⟨decl, hdecl, hdef⟩ := Outcome.exists_of_mem_right hdefs ht
  exact hdef.distinct ((hms m hm).bodies decl hdecl)

theorem fresh_of_modules_eq_ok (h : modules base serial text ms = .ok resolved) :
    ∀ m ∈ ms, m.name ∉ base.map Module.name := by
  induction ms generalizing serial text resolved with
  | nil => simp
  | cons m ms ih =>
    obtain ⟨hname, made, rest, -, hrest, -⟩ := of_modules_cons_eq_ok h
    exact List.forall_mem_cons.mpr ⟨hname, ih hrest⟩

end Resolve

/-! ## Sound models -/

/-- Modules and types are told apart by their names, references lead to types of the model, and each
type has a finite value; the numbers of the modules are below `next`. -/
structure Model.Sound (m : Model) (next : Nat) : Prop where
  modules : ∀ M ∈ m.modules, M.Sound ∧ M.serial < next
  names : (m.modules.map Module.name).Nodup
  words : ∀ M ∈ m.modules, Token.IsWord M.name
  distinct : ∀ t ∈ m.types, t.Distinct
  closed : ∀ t ∈ m.types, ∀ k, t.RefersTo k → ∃ t' ∈ m.types, t'.key = k
  values : ∀ t ∈ m.types, (TypeRef.declared t.key).HasValue m.types

/-- `m` is made by loads of texts, all of whose modules have numbers below `next`. -/
inductive Model.Reachable : Model → Nat → Prop
  | empty {limit : Option Number} {next : Nat} : Model.Reachable (.empty limit) next
  | load {base : Model} {next serial : Nat} {limit : Option Number} {source : String}
      {loaded : Loaded} :
    Model.Reachable base next → next ≤ serial → base.load serial limit source = .ok loaded →
    Model.Reachable loaded.model (serial + loaded.modules.length)

namespace Model

variable {m base : Model} {next serial : Nat} {limit : Option Number} {tree : SchemaTree}
  {source : String} {resolved : Resolved} {loaded : Loaded} {t t' : TypeDef}

theorem sound_empty : (Model.empty limit).Sound next where
  modules M hM := by cases hM
  names := List.nodup_nil
  words M hM := by cases hM
  distinct t ht := by cases ht
  closed t ht := by cases ht
  values t ht := by cases ht

/-- In a sound model a qualified name belongs to one type. -/
theorem Sound.eq_of_id_eq (h : m.Sound next) (ht : t ∈ m.types) (ht' : t' ∈ m.types)
    (hid : t'.id = t.id) : t' = t := by
  obtain ⟨M, hM, htM⟩ := List.mem_flatMap.mp ht
  obtain ⟨M', hM', htM'⟩ := List.mem_flatMap.mp ht'
  have hkey := (h.modules M hM).1.key t htM
  have hkey' := (h.modules M' hM').1.key t' htM'
  have hdot : '.' ∉ t.key.module.toList := by
    rw [hkey.2]
    exact (h.words M hM).dot_notMem
  have hdot' : '.' ∉ t'.key.module.toList := by
    rw [hkey'.2]
    exact (h.words M' hM').dot_notMem
  obtain ⟨hmodule, hname⟩ := TypeKey.eq_of_id_eq hdot' hdot hid
  have hM : M' = M :=
    List.inj_on_of_nodup_map h.names hM' hM (by rw [← hkey.2, ← hkey'.2, hmodule])
  subst hM
  exact (h.modules _ hM').1.eq_of_name_eq htM' htM hname

/-- Every type of a sound model has a value, so every sum has a constructor. -/
theorem Sound.exists_alternative (h : m.Sound next) (ht : t ∈ m.types) : ∃ c, t.Alternative c := by
  have hvalue : ∀ type : TypeRef, type.HasValue m.types → ∀ k, type = .declared k →
      ∃ t' ∈ m.types, t'.key = k ∧ ∃ c, t'.Alternative c := by
    rintro _ ⟨_, hv⟩ k rfl
    cases hv with
    | node ht' hc _ _ _ => exact ⟨_, ht', rfl, _, hc⟩
  obtain ⟨t', ht', hkey, hc⟩ := hvalue _ (h.values t ht) _ rfl
  rwa [h.eq_of_id_eq ht ht' (by rw [TypeDef.id, TypeDef.id, hkey])] at hc

/-- In a sound model a type is found by its qualified name. -/
theorem Sound.getType_id (h : m.Sound next) (ht : t ∈ m.types) : m.getType t.id = .ok t :=
  getType_eq_ok.mpr (lookup_id ht fun _ ht' hid => h.eq_of_id_eq ht ht' hid)

/-- In a sound model a module is found by its name. -/
theorem Sound.getModule_name (h : m.Sound next) {M : Module} (hM : M ∈ m.modules) :
    m.getModule M.name = some M := by
  refine Outcome.find?_eq_some_of_unique hM (decide_eq_true rfl) fun M' hM' heq => ?_
  exact List.inj_on_of_nodup_map h.names hM' hM (of_decide_eq_true heq)

/-- The keys of what is made of a tree are not those of types of the base. -/
theorem Sound.key_notMem (h : base.Sound next) (hserial : next ≤ serial)
    (hresolved : Resolve.modules base.modules serial [] tree.modules = .ok resolved)
    (ht : t ∈ base.types) : t.key ∉ (resolved.modules.flatMap Module.types).map TypeDef.key := by
  intro hmem
  obtain ⟨M, hM, htM⟩ := List.mem_flatMap.mp ht
  obtain ⟨hsound, hold⟩ := h.modules M hM
  obtain ⟨t', ht', hkey⟩ := List.mem_map.mp hmem
  obtain ⟨M', hM', htM'⟩ := List.mem_flatMap.mp ht'
  have hsounds := (Resolve.modules_sound hresolved).1
  have hnew := (Resolve.serial_of_modules_eq_ok hresolved hM').1
  have hsame : M'.serial = M.serial := by
    rw [← ((hsounds M' hM').key t' htM').1, hkey, (hsound.key t htM).1]
  omega

/-- Among the definitions of a tree over a sound model the rounds find those that have values. -/
theorem Sound.mem_representable_iff (h : base.Sound next) (hserial : next ≤ serial)
    (htree : tree.Distinct)
    (hresolved : Resolve.modules base.modules serial [] tree.modules = .ok resolved)
    (ht : t ∈ resolved.modules.flatMap Module.types) :
    t.key ∈ Representable.representable (resolved.modules.flatMap Module.types) ↔
      (TypeRef.declared t.key).HasValue
        (base.types ++ resolved.modules.flatMap Module.types) :=
  Representable.mem_representable_iff h.values
    (fun _ ht c hc f hf _ hk =>
      Resolve.exists_of_refersTo htree.modules hresolved ht ⟨c, hc, f, hf, hk⟩)
    (fun _ ht => h.key_notMem hserial hresolved ht) ht

/-- The definitions of a tree over a sound model pass the check if and only if they have values. -/
theorem Sound.check_eq_ok_iff (h : base.Sound next) (hserial : next ≤ serial)
    (htree : tree.Distinct)
    (hresolved : Resolve.modules base.modules serial [] tree.modules = .ok resolved) :
    Representable.check (resolved.modules.flatMap Module.types) = .ok () ↔
      ∀ t ∈ resolved.modules.flatMap Module.types,
        (TypeRef.declared t.key).HasValue
          (base.types ++ resolved.modules.flatMap Module.types) := by
  rw [Representable.check_eq_ok_iff_mem]
  exact forall₂_congr fun t ht => h.mem_representable_iff hserial htree hresolved ht

/-- A load that succeeds resolves the tree of its text, and what it defines passes the check. -/
theorem of_load_eq_ok (h : base.load serial limit source = .ok loaded) :
    ∃ tree, SchemaTree.parse source = .ok tree ∧
      Resolve.modules base.modules serial [] tree.modules =
        .ok ⟨loaded.modules, loaded.warnings⟩ ∧
      Representable.check (loaded.modules.flatMap Module.types) = .ok () ∧
      loaded.model.modules = base.modules ++ loaded.modules := by
  obtain ⟨tree, htree, h⟩ := Outcome.bind_eq_ok.mp h
  obtain ⟨hresolve, hmodules⟩ := of_loadTree_eq_ok h
  obtain ⟨hresolved, hcheck⟩ := SchemaTree.resolve_eq_ok.mp hresolve
  exact ⟨tree, htree, hresolved, hcheck, hmodules⟩

theorem types_append {modules : List Module} (h : m.modules = base.modules ++ modules) :
    m.types = base.types ++ modules.flatMap Module.types := by
  rw [types, h, List.flatMap_append, types]

/-- A load keeps a model sound. -/
theorem Sound.load (h : base.Sound next) (hserial : next ≤ serial)
    (hload : base.load serial limit source = .ok loaded) :
    loaded.model.Sound (serial + loaded.modules.length) := by
  obtain ⟨tree, htree, hresolved, hcheck, hmodules⟩ := of_load_eq_ok hload
  obtain ⟨hdistinct, hwords⟩ := SchemaTree.of_parse_eq_ok htree
  have hsounds := (Resolve.modules_sound hresolved).1
  have hnames := Resolve.names_of_modules_eq_ok hresolved
  have htypes := types_append hmodules
  refine ⟨?_, ?_, ?_, ?_, ?_, ?_⟩
  · rw [hmodules, List.forall_mem_append]
    refine ⟨fun M hM => ?_, fun M hM => ⟨hsounds M hM, ?_⟩⟩
    · obtain ⟨hsound, hlt⟩ := h.modules M hM
      exact ⟨hsound, by omega⟩
    · exact (Resolve.serial_of_modules_eq_ok hresolved hM).2
  · rw [hmodules, List.map_append, hnames, List.nodup_append]
    refine ⟨h.names, hdistinct.names, fun x hx y hy hxy => ?_⟩
    obtain ⟨decl, hdecl, rfl⟩ := List.mem_map.mp hy
    exact Resolve.fresh_of_modules_eq_ok hresolved decl hdecl (hxy ▸ hx)
  · rw [hmodules, List.forall_mem_append]
    refine ⟨h.words, fun M hM => ?_⟩
    have hmem := List.mem_map_of_mem (f := Module.name) hM
    rw [hnames] at hmem
    obtain ⟨decl, hdecl, hname⟩ := List.mem_map.mp hmem
    exact hname ▸ (hwords decl hdecl _ List.mem_cons_self).isWord
  · rw [htypes, List.forall_mem_append]
    exact ⟨h.distinct, Resolve.distinct_of_modules_eq_ok hdistinct.modules hresolved⟩
  · rw [htypes, List.forall_mem_append]
    refine ⟨fun t ht k hk => ?_, fun t ht k hk => ?_⟩
    · obtain ⟨t', ht', hkey⟩ := h.closed t ht k hk
      exact ⟨t', List.mem_append_left _ ht', hkey⟩
    · exact Resolve.exists_of_refersTo hdistinct.modules hresolved ht hk
  · rw [htypes, List.forall_mem_append]
    exact ⟨fun t ht => (h.values t ht).mono (List.subset_append_left _ _),
      (h.check_eq_ok_iff hserial hdistinct hresolved).mp hcheck⟩

theorem Reachable.sound (h : m.Reachable next) : m.Sound next := by
  induction h with
  | empty => exact sound_empty
  | load _ hserial hload ih => exact ih.load hserial hload

end Model

end Schemata
