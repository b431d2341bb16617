import Schemata.Proofs.Model.Loads

/-!
# The names in loaded models

The names that a text gives to types, constructors and fields are words, so they contain none of the
marks that stand between names elsewhere: the dot of a qualified name, and the marks of printed
values. No type has the name of a primitive type, and no two types of a module have the same name
(`Module.Named`). In a model made by loads all modules are so (`Model.Reachable.named`), and a
qualified name belongs to one type (`Model.Sound.eq_of_id_eq`, `Model.Reachable.nodup_ids`).
-/

namespace Schemata

/-- The type, its constructors and its fields are named by words, no field by a reserved one, and no
primitive type has the name of the type. -/
structure TypeDef.Named (t : TypeDef) : Prop where
  word : Token.IsWord t.name
  not_primitive : ∀ p : Primitive, p.name ≠ t.name
  constructors : ∀ c ∈ t.constructors, Token.IsWord c.name
  fields : ∀ c, t.Alternative c → ∀ f ∈ Construct.declared t c, Token.IsWord f.name
  unreserved : ∀ c, t.Alternative c → ∀ f ∈ Construct.declared t c,
    f.name ∉ TokenKind.reservedWords

theorem TypeDef.Named.label {t : TypeDef} (h : t.Named) {c : Option Constructor}
    (hc : t.Alternative c) : Token.IsWord (Construct.label t c) := by
  cases hc with
  | product _ => exact h.word
  | sum hshape hc => exact h.constructors _ (by rwa [TypeDef.constructors, hshape])

/-- The types of the module are properly named, and differently. -/
structure Module.Named (M : Module) : Prop where
  names : (M.types.map TypeDef.name).Nodup
  types : ∀ t ∈ M.types, t.Named

namespace Resolve

variable {scopes earlier : List Scope} {key : TypeKey} {decl : TypeDecl} {t : TypeDef}
  {serial : Nat} {m : ModuleDecl} {made : Module}

theorem DefinesType.named (h : DefinesType scopes key decl t) (hname : key.name = decl.name)
    (hprimitive : ∀ p : Primitive, p.name ≠ decl.name)
    (hnames : ∀ name ∈ decl.name :: decl.body.givenNames, Token.IsName name) : t.Named := by
  obtain ⟨hdecl, hnames⟩ := List.forall_mem_cons.mp hnames
  have ht : t.name = decl.name := by rw [TypeDef.name, h.key_eq, hname]
  have hfields : ∀ c, t.Alternative c → ∀ f ∈ Construct.declared t c, Token.IsName f.name := by
    intro c hc f hf
    refine hnames _ ?_
    have hmem := List.mem_map_of_mem (f := Field.name) hf
    rcases h.fieldNames hc with ⟨fs, hbody, hnames⟩ | ⟨cs, shared, cdecl, hbody, hcdecl, hnames⟩
    · rw [hbody, TypeBody.givenNames, ← hnames]
      exact hmem
    · rw [hnames, List.mem_append] at hmem
      rw [hbody, TypeBody.givenNames, List.mem_append]
      refine hmem.symm.imp_right fun hmem => ?_
      exact List.mem_flatMap.mpr ⟨cdecl, hcdecl, List.mem_cons_of_mem _ hmem⟩
  refine ⟨ht ▸ hdecl.isWord, ht ▸ hprimitive, fun c hc => ?_,
    fun c hc f hf => (hfields c hc f hf).isWord,
    fun c hc f hf => (hfields c hc f hf).notMem_reservedWords⟩
  cases h with
  | product _ _ _ => cases hc
  | sum hbody _ _ hcs _ =>
    obtain ⟨cdecl, hcdecl, hdef⟩ := Outcome.exists_of_mem_right hcs hc
    rw [hdef.name]
    refine (hnames _ ?_).isWord
    rw [hbody]
    exact List.mem_append_right _ (List.mem_flatMap.mpr ⟨cdecl, hcdecl, List.mem_cons_self⟩)

/-- A module is named as its declaration is. -/
theorem named_of_module_eq_ok (hnames : (m.types.map TypeDecl.name).Nodup)
    (hgiven : ∀ name ∈ m.givenNames, Token.IsName name) (h : module serial earlier m = .ok made) :
    made.Named := by
  obtain ⟨-, -, hdefs⟩ := of_module_eq_ok hnames h
  have hprimitive := ((exists_module_eq_ok serial earlier hnames).mp ⟨made, h⟩).1
  refine ⟨?_, fun t ht => ?_⟩
  · rwa [typeNames_of_module_eq_ok hnames h]
  · obtain ⟨decl, hdecl, hdef⟩ := Outcome.exists_of_mem_right hdefs ht
    refine hdef.named rfl (hprimitive decl hdecl) fun name hname => hgiven name ?_
    exact List.mem_cons_of_mem _ (List.mem_flatMap.mpr ⟨decl, hdecl, hname⟩)

end Resolve

namespace Model

variable {m : Model} {next : Nat} {M : Module} {t t' : TypeDef} {k k' : TypeKey}

/-- Each module of a model is made of a declaration without repeated or reserved names. -/
theorem Reachable.exists_module_eq_ok (h : m.Reachable next) (hM : M ∈ m.modules) :
    ∃ serial earlier decl, decl.Distinct ∧ (∀ name ∈ decl.givenNames, Token.IsName name) ∧
      Resolve.module serial earlier decl = .ok M := by
  induction h with
  | empty => cases hM
  | load _ _ hload ih =>
    obtain ⟨tree, htree, hresolved, -, hmodules⟩ := of_load_eq_ok hload
    obtain ⟨hdistinct, hnames⟩ := SchemaTree.of_parse_eq_ok htree
    rw [hmodules, List.mem_append] at hM
    rcases hM with hM | hM
    · exact ih hM
    · obtain ⟨decl, hdecl, serial, earlier, hmade⟩ :=
        Outcome.exists_of_mem_right (Resolve.forall₂_of_modules_eq_ok hresolved) hM
      exact ⟨serial, earlier, decl, hdistinct.modules decl hdecl, hnames decl hdecl, hmade⟩

theorem Reachable.named (h : m.Reachable next) : ∀ M ∈ m.modules, M.Named := by
  intro M hM
  obtain ⟨_, _, _, hdistinct, hnames, hmade⟩ := h.exists_module_eq_ok hM
  exact Resolve.named_of_module_eq_ok hdistinct.names hnames hmade

/-- Within a module one name of a type means one type. -/
theorem Reachable.eq_of_name_eq (h : m.Reachable next) (hM : M ∈ m.modules) (hk : M.Uses k)
    (hk' : M.Uses k') (hname : k.name = k'.name) : k = k' := by
  obtain ⟨_, _, _, hdistinct, -, hmade⟩ := h.exists_module_eq_ok hM
  have hfind := Resolve.find_of_uses hdistinct.names hmade hk
  rw [hname, Resolve.find_of_uses hdistinct.names hmade hk'] at hfind
  exact (Option.some.inj hfind).symm

/-- What a definition of a model mentions stands in a field of its values. -/
theorem Reachable.refersTo (h : m.Reachable next) (ht : t ∈ m.types) (hk : t.Mentions k) :
    t.RefersTo k := by
  obtain ⟨M, hM, htM⟩ := List.mem_flatMap.mp ht
  obtain ⟨_, _, _, hdistinct, -, hmade⟩ := h.exists_module_eq_ok hM
  obtain ⟨decl, -, hdef⟩ :=
    Outcome.exists_of_mem_right (Resolve.of_module_eq_ok hdistinct.names hmade).2.2 htM
  obtain ⟨c, hc⟩ := h.sound.exists_alternative ht
  exact hdef.refersTo hc hk

theorem Reachable.named_type (h : m.Reachable next) (ht : t ∈ m.types) : t.Named := by
  obtain ⟨M, hM, ht⟩ := List.mem_flatMap.mp ht
  exact (h.named M hM).types t ht

/-- No two types of a model made by loads have the same qualified name. -/
theorem Reachable.nodup_ids (h : m.Reachable next) : (m.types.map TypeDef.id).Nodup := by
  have hnodup : m.types.Nodup := by
    refine List.nodup_flatMap.mpr ⟨fun M hM => .of_map _ (h.named M hM).names, ?_⟩
    refine (List.pairwise_map.mp h.sound.names).imp_of_mem fun hM hM' hne t ht ht' => ?_
    have hname := ((h.sound.modules _ hM).1.key t ht).2
    have hname' := ((h.sound.modules _ hM').1.key t ht').2
    exact hne (hname.symm.trans hname')
  exact hnodup.map_on fun t ht t' ht' hid => h.sound.eq_of_id_eq ht' ht hid

end Model

end Schemata
