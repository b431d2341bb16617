import Schemata.Proofs.Model.Chain
import Schemata.Proofs.Model.Inhabited

/-!
# Loading a tree module by module

The modules of a tree can be loaded one at a time, each on top of what the loads before it made
(`Model.loadEach`). This succeeds if and only if the whole tree can be loaded, and makes the same
model up to the numbers of the modules (`SchemaTree.loadTree_iff_loadEach`).

The two ways look up names in different places: an earlier module is part of the tree for the one,
and of the base for the other. The scope of a loaded module is that of its declaration
(`Resolve.loadedScope_of_module_eq_ok`), so the names mean the same.
-/

namespace Schemata

/-- Load modules one after the other, each with the number of its name and on top of the model made
before. -/
def Model.loadEach (number : String → Nat) (limit : Option Number) (base : Model) :
    List ModuleDecl → Except LoadError Loaded
  | [] => .ok ⟨base, [], []⟩
  | m :: ms => do
    let first ← base.loadTree (number m.name) limit ⟨[m]⟩
    let rest ← loadEach number limit first.model ms
    pure ⟨rest.model, first.modules ++ rest.modules, first.warnings ++ rest.warnings⟩

/-- The second model is the first one but for the numbers of the modules. It has the same modules
with the same types; each reference leads to one type, and the corresponding reference to the type
that corresponds to this one; the generated declarations are the same. -/
structure Model.Renumbers (number : String → Nat) (m m' : Model) : Prop where
  modules : m'.modules = m.modules.map (Module.renumber number)
  maxPrintDepth : m'.maxPrintDepth = m.maxPrintDepth
  references : ∀ t ∈ m.types, ∀ k, t.Mentions k → ∃ t' ∈ m.types,
    (∀ u ∈ m.types, u.key = k ↔ u = t') ∧
    ∀ u ∈ m'.types, u.key = k.renumber number ↔ u = t'.renumber number
  moduleTexts : m'.modules.map Declarations.moduleText = m.modules.map Declarations.moduleText
  texts : Declarations.texts m'.modules = Declarations.texts m.modules

namespace Resolve

variable {earlier text : List Scope} {serial : Nat} {m : ModuleDecl} {ms : List ModuleDecl}
  {made : Module} {resolved : Resolved}

/-- What is made of a tree over no modules is a chain. -/
theorem chain_of_modules_eq_ok (hms : ∀ m ∈ ms, m.Distinct)
    (hnames : (ms.map ModuleDecl.name).Nodup) (h : modules [] serial [] ms = .ok resolved) :
    Module.Chain resolved.modules where
  names := names_of_modules_eq_ok h ▸ hnames
  sound := (modules_sound h).1
  references before M after hsplit t ht k hk := by
    rcases exists_of_mentions hms h hsplit ht hk with ⟨_, hscope, -⟩ | htype
    · cases hscope
    · simpa using htype

end Resolve

namespace Model

variable {number : String → Nat} {limit : Option Number} {base : Model} {serial : Nat}
  {m : ModuleDecl} {ms : List ModuleDecl} {loaded each : Loaded} {text : List Resolve.Scope}

/-- Loading one module: the modules of the base are all that its names can refer to. -/
theorem loadTree_singleton_eq_ok :
    base.loadTree serial limit ⟨[m]⟩ = .ok loaded ↔
      m.name ∉ base.modules.map Module.name ∧ ∃ made,
        Resolve.module serial (base.modules.map Resolve.loadedScope) m = .ok made ∧
        Representable.check made.types = .ok () ∧
        loaded = ⟨⟨base.modules ++ [made], limit.getD base.maxPrintDepth⟩, [made],
          Resolve.moduleWarnings (base.modules.map Resolve.loadedScope) m⟩ := by
  rw [loadTree_eq_ok]
  constructor
  · rintro ⟨resolved, hresolved, hcheck, rfl⟩
    obtain ⟨hname, made, rest, hmade, hrest, rfl⟩ := Resolve.modules_cons_eq_ok.mp hresolved
    obtain rfl := Except.ok.inj hrest
    rw [List.flatMap_singleton] at hcheck
    exact ⟨hname, made, hmade, hcheck, by simp⟩
  · rintro ⟨hname, made, hmade, hcheck, rfl⟩
    refine ⟨⟨[made], Resolve.moduleWarnings (base.modules.map Resolve.loadedScope) m⟩, ?_, ?_, rfl⟩
    · exact Resolve.modules_cons_eq_ok.mpr ⟨hname, made, ⟨[], []⟩, hmade, rfl, by simp⟩
    · rwa [List.flatMap_singleton]

/-- The base holds modules with the scopes `text`, numbers apart, and none of those that are still
to be loaded; a load on top of it goes on with its depth limit. -/
structure StandsFor (number : String → Nat) (limit : Option Number) (text : List Resolve.Scope)
    (ms : List ModuleDecl) (base : Model) : Prop where
  scopes : base.modules.map Resolve.loadedScope = Resolve.renumberAll number text
  fresh : ∀ m ∈ ms, m.name ∉ base.modules.map Module.name
  depth : limit.getD base.maxPrintDepth = base.maxPrintDepth

theorem standsFor_empty : (Model.empty limit).StandsFor number limit [] ms where
  scopes := rfl
  fresh := by simp [Model.empty]
  depth := by cases limit <;> rfl

namespace StandsFor

variable {made : Module}

theorem module_eq (h : base.StandsFor number limit text ms) (serial : Nat) (m : ModuleDecl) :
    Resolve.module (number m.name) (base.modules.map Resolve.loadedScope) m =
      (Resolve.module serial text m).map (Module.renumber number) := by
  rw [h.scopes, Resolve.module_renumber number text m serial]

/-- The base with one module more stands for the rest. -/
theorem next (h : base.StandsFor number limit text (m :: ms))
    (htypes : (m.types.map TypeDecl.name).Nodup) (hname : m.name ∉ ms.map ModuleDecl.name)
    (hmade : Resolve.module serial text m = .ok made) :
    StandsFor number limit (text ++ [Resolve.declaredScope serial m]) ms
      ⟨base.modules ++ [made.renumber number], base.maxPrintDepth⟩ where
  scopes := by
    have hmade' := (h.module_eq serial m).trans (congrArg (Except.map _) hmade)
    rw [List.map_append, List.map_singleton, h.scopes,
      Resolve.loadedScope_of_module_eq_ok htypes hmade',
      Resolve.declaredScope_renumber number m serial, Resolve.renumberAll_concat]
  fresh m' hm' hmem := by
    rw [List.map_append, List.map_singleton, List.mem_append, List.mem_singleton] at hmem
    rcases hmem with hmem | heq
    · exact h.fresh m' (List.mem_cons_of_mem _ hm') hmem
    · have heq : m'.name = m.name := heq.trans (Resolve.module_sound hmade).2.2
      exact hname (heq ▸ List.mem_map_of_mem hm')
  depth := h.depth

end StandsFor

/-- Loading modules one by one resolves them as a whole, with other numbers, and checks each of them
alone. -/
theorem loadEach_eq_ok (hms : ∀ m ∈ ms, m.Distinct) (hnames : (ms.map ModuleDecl.name).Nodup)
    (h : base.StandsFor number limit text ms) :
    base.loadEach number limit ms = .ok each ↔ ∃ resolved,
      Resolve.modules [] serial text ms = .ok resolved ∧
      (∀ M ∈ resolved.modules, Representable.check (M.renumber number).types = .ok ()) ∧
      each = ⟨⟨base.modules ++ resolved.modules.map (Module.renumber number), base.maxPrintDepth⟩,
        resolved.modules.map (Module.renumber number), resolved.warnings⟩ := by
  induction ms generalizing base serial text each with
  | nil =>
    constructor
    · intro h
      obtain rfl := Except.ok.inj h
      exact ⟨⟨[], []⟩, rfl, by simp, by simp⟩
    · rintro ⟨resolved, hresolved, -, rfl⟩
      obtain rfl := Except.ok.inj hresolved
      rw [loadEach, List.map_nil, List.append_nil]
  | cons m ms ih =>
    obtain ⟨hm, hms⟩ := List.forall_mem_cons.mp hms
    obtain ⟨hname, hnames⟩ := List.nodup_cons.mp hnames
    have hfresh := h.fresh m List.mem_cons_self
    constructor
    · intro hload
      obtain ⟨first, hfirst, hload⟩ := Outcome.bind_eq_ok.mp hload
      obtain ⟨rest, hrest, hload⟩ := Outcome.bind_eq_ok.mp hload
      obtain rfl := Outcome.pure_eq_ok.mp hload
      obtain ⟨-, made', hmade', hcheck, rfl⟩ := loadTree_singleton_eq_ok.mp hfirst
      obtain ⟨made, hmade, rfl⟩ := Outcome.map_eq_ok.mp ((h.module_eq serial m).symm.trans hmade')
      rw [h.depth] at hrest
      obtain ⟨resolved, hresolved, hchecks, rfl⟩ :=
        (ih hms hnames (h.next hm.names hname hmade)).mp hrest
      refine ⟨⟨made :: resolved.modules, Resolve.moduleWarnings text m ++ resolved.warnings⟩,
        Resolve.modules_cons_eq_ok.mpr ⟨by simp, made, resolved, by simpa using hmade, hresolved,
          by simp⟩, List.forall_mem_cons.mpr ⟨hcheck, hchecks⟩, ?_⟩
      rw [h.scopes, Resolve.moduleWarnings_renumber]
      simp
    · rintro ⟨resolved, hresolved, hchecks, rfl⟩
      obtain ⟨-, made, rest, hmade, hmodules, rfl⟩ := Resolve.modules_cons_eq_ok.mp hresolved
      rw [List.map_nil, List.append_nil] at hmade ⊢
      obtain ⟨hcheck, hchecks⟩ := List.forall_mem_cons.mp hchecks
      have hmade' := (h.module_eq serial m).trans (congrArg (Except.map _) hmade)
      have hfirst : base.loadTree _ limit ⟨[m]⟩ = .ok _ :=
        loadTree_singleton_eq_ok.mpr ⟨hfresh, _, hmade', hcheck, rfl⟩
      rw [h.depth] at hfirst
      have hrest := (ih hms hnames (h.next hm.names hname hmade)).mpr
        ⟨rest, hmodules, hchecks, rfl⟩
      rw [loadEach, hfirst, Outcome.ok_bind, hrest, Outcome.ok_bind, h.scopes,
        Resolve.moduleWarnings_renumber]
      simp only [List.map_cons, List.append_assoc]
      rfl

/-- Modules of a chain with other numbers make the same model, numbers apart. -/
theorem Renumbers.of_chain {m m' : Model} {number : String → Nat} (h : Module.Chain m.modules)
    (hmodules : m'.modules = m.modules.map (Module.renumber number))
    (hdepth : m'.maxPrintDepth = m.maxPrintDepth) : Renumbers number m m' where
  modules := hmodules
  maxPrintDepth := hdepth
  references t ht k hk := by
    obtain ⟨M, hM, htM⟩ := List.mem_flatMap.mp ht
    obtain ⟨before, after, hsplit⟩ := List.append_of_mem hM
    obtain ⟨t', ht', rfl⟩ := h.references before M after hsplit t htM k hk
    have hmem : t' ∈ m.types := by
      rw [types, hsplit, List.append_cons, List.flatMap_append]
      exact List.mem_append_left _ ht'
    refine ⟨t', hmem, fun u hu => ⟨fun hkey => ?_, congrArg TypeDef.key⟩, ?_⟩
    · exact h.eq_of_renumber_eq number hu hmem (congrArg (TypeKey.renumber number) hkey)
    · rw [types, hmodules, Module.Chain.types_renumber, List.forall_mem_map]
      refine fun u hu => ⟨fun hkey => ?_, congrArg TypeDef.key⟩
      rw [h.eq_of_renumber_eq number hu hmem hkey]
  moduleTexts := by
    rw [hmodules, List.map_map]
    exact List.map_congr_left fun M _ => Declarations.moduleText_renumber number M
  texts := by
    rw [hmodules]
    exact Declarations.texts_renumber number m.modules

end Model

namespace SchemaTree

variable {tree : SchemaTree} {source : String}

/-- The tree of a text can be loaded as a whole if and only if its modules can be loaded one after
the other, whatever their numbers. Both ways end with the same model, numbers apart, and with the
same warnings. -/
theorem loadTree_iff_loadEach (hparse : parse source = .ok tree) (serial : Nat)
    (number : String → Nat) (limit : Option Number) :
    ((∃ whole, (Model.empty limit).loadTree serial limit tree = .ok whole) ↔
      ∃ each, (Model.empty limit).loadEach number limit tree.modules = .ok each) ∧
    ∀ whole each, (Model.empty limit).loadTree serial limit tree = .ok whole →
      (Model.empty limit).loadEach number limit tree.modules = .ok each →
      Model.Renumbers number whole.model each.model ∧ each.warnings = whole.warnings := by
  obtain ⟨hnames, hmodules⟩ := (of_parse_eq_ok hparse).1
  have hstands : (Model.empty limit).StandsFor number limit [] tree.modules := Model.standsFor_empty
  have hwhole (whole : Loaded) :
      (Model.empty limit).loadTree serial limit tree = .ok whole ↔ _ := Model.loadTree_eq_ok
  have heach (each : Loaded) :
      (Model.empty limit).loadEach number limit tree.modules = .ok each ↔ ∃ resolved,
        Resolve.modules [] serial [] tree.modules = .ok resolved ∧ _ :=
    Model.loadEach_eq_ok hmodules hnames hstands
  have hcheck {resolved : Resolved}
      (hresolved : Resolve.modules [] serial [] tree.modules = .ok resolved) :
      Representable.check (resolved.modules.flatMap Module.types) = .ok () ↔
        ∀ M ∈ resolved.modules, Representable.check (M.renumber number).types = .ok () := by
    have hchain := Resolve.chain_of_modules_eq_ok hmodules hnames hresolved
    rw [← hchain.check_renumber_eq_ok_iff number, (hchain.renumber number).check_eq_ok_iff,
      List.forall_mem_map]
  refine ⟨⟨?_, ?_⟩, fun whole each hw he => ?_⟩
  · rintro ⟨whole, hw⟩
    obtain ⟨resolved, hresolved, hall, -⟩ := (hwhole whole).mp hw
    exact ⟨_, (heach _).mpr ⟨resolved, hresolved, (hcheck hresolved).mp hall, rfl⟩⟩
  · rintro ⟨each, he⟩
    obtain ⟨resolved, hresolved, hall, -⟩ := (heach each).mp he
    exact ⟨_, (hwhole _).mpr ⟨resolved, hresolved, (hcheck hresolved).mpr hall, rfl⟩⟩
  · obtain ⟨resolved, hresolved, -, rfl⟩ := (hwhole whole).mp hw
    obtain ⟨resolved', hresolved', -, rfl⟩ := (heach each).mp he
    obtain rfl := Except.ok.inj (hresolved.symm.trans hresolved')
    have hchain := Resolve.chain_of_modules_eq_ok hmodules hnames hresolved
    exact ⟨.of_chain hchain rfl hstands.depth.symm, rfl⟩

/-- The tree of `module m \x7b a = (int x) b = (a y) \x7d module n \x7b b = (a y, b* z) \x7d`. -/
def sampleTwo : SchemaTree :=
  ⟨[⟨"m", ⟨1, 1⟩, [⟨"a", ⟨1, 12⟩, .product [⟨"x", "int", .single, ⟨1, 17⟩⟩]⟩,
      ⟨"b", ⟨1, 24⟩, .product [⟨"y", "a", .single, ⟨1, 29⟩⟩]⟩]⟩,
    ⟨"n", ⟨1, 36⟩, [⟨"b", ⟨1, 47⟩, .product [⟨"y", "a", .single, ⟨1, 52⟩⟩,
      ⟨"z", "b", .repeated, ⟨1, 57⟩⟩]⟩]⟩]⟩

theorem parse_eq_sampleTwo :
    parse "module m \x7b a = (int x) b = (a y) \x7d module n \x7b b = (a y, b* z) \x7d" =
      .ok sampleTwo := rfl

/-- The second module hides a type of the first and refers to the other one. -/
theorem loadTree_iff_loadEach_two : ∃ whole each,
    (Model.empty none).loadTree 0 none sampleTwo = .ok whole ∧
    (Model.empty none).loadEach (fun name => if name = "m" then 3 else 5) none sampleTwo.modules =
      .ok each ∧
    each.model.types.map TypeDef.key = [⟨3, "m", "a"⟩, ⟨3, "m", "b"⟩, ⟨5, "n", "b"⟩] ∧
    Model.Renumbers (fun name => if name = "m" then 3 else 5) whole.model each.model ∧
    each.warnings = whole.warnings ∧ whole.warnings.length = 1 := by
  obtain ⟨-, hsame⟩ := loadTree_iff_loadEach parse_eq_sampleTwo 0
    (fun name => if name = "m" then 3 else 5) none
  have hwhole : ∃ whole, (Model.empty none).loadTree 0 none sampleTwo = .ok whole ∧
      whole.warnings.length = 1 := ⟨_, rfl, rfl⟩
  have heach : ∃ each, (Model.empty none).loadEach (fun name => if name = "m" then 3 else 5) none
      sampleTwo.modules = .ok each ∧
      each.model.types.map TypeDef.key = [⟨3, "m", "a"⟩, ⟨3, "m", "b"⟩, ⟨5, "n", "b"⟩] :=
    ⟨_, rfl, rfl⟩
  obtain ⟨whole, hw, hone⟩ := hwhole
  obtain ⟨each, he, hkeys⟩ := heach
  obtain ⟨hrenumbers, hwarnings⟩ := hsame whole each hw he
  exact ⟨whole, each, hw, he, hkeys, hrenumbers, hwarnings, hone⟩

end SchemaTree

end Schemata
