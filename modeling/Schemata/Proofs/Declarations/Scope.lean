import Schemata.Proofs.Declarations.Reading
import Schemata.Proofs.Model.Inhabited

/-!
# What names mean in a declaration file

A declaration file writes the bare names of types, though several modules may declare a type of one
name. What such a name stands for is said by the file itself (`SourceFile.Denotes`): the type of
this name in the module of the file, if the file declares the name, or the type of this name in the
module that the file imports the name from.

In a model made by loads a bare name means one type within a module
(`Model.Reachable.eq_of_name_eq`). So the file that is generated for a module imports exactly what
its references need, each name once, and every name of a type that is written for a field stands for
the type that the field has (`Model.Reachable.scoped_moduleText`).
-/

namespace Schemata

namespace Declarations

/-- A name that the file declares as that of a union, or of an interface that is not an alternative
of one. -/
def SourceFile.Declares (file : SourceFile) (name : String) : Prop :=
  name ∈ file.unions.map Union.name ∨ ∃ i ∈ file.interfaces, i.name = name ∧
    ∀ label, ("_type", .literal label) ∉ i.properties

/-- Where the file is that of the module `own`, the name stands for the type. -/
def SourceFile.Denotes (file : SourceFile) (own name : String) (t : TypeDef) : Prop :=
  t.name = name ∧ (file.Declares name ∧ t.module = own ∨
    ∃ entry ∈ file.imports, name ∈ entry.2 ∧ t.module = entry.1)

/-- The imports of the file of a module are those that its references need, and what is written for
a field of a declared type stands for that type. -/
structure SourceFile.Scoped (file : SourceFile) (m : Model) (M : Module) : Prop where
  covered : ∀ t ∈ M.types, ∀ k, t.Mentions k → k.module ≠ M.name →
    (∃ M' ∈ m.modules, M'.name = k.module ∧ ∃ t' ∈ M'.types, t'.key = k) ∧
    ∃ entry ∈ file.imports, entry.1 = k.module ∧ k.name ∈ entry.2 ∧
      ∀ entry' ∈ file.imports, k.name ∈ entry'.2 → entry' = entry
  needed : ∀ entry ∈ file.imports, entry.2 ≠ [] ∧ ∀ name ∈ entry.2,
    ∃ t ∈ M.types, ∃ k, t.Mentions k ∧ k.module = entry.1 ∧ k.name = name
  undeclared : ∀ entry ∈ file.imports, ∀ t ∈ M.types, t.name ∉ entry.2
  names : (file.imports.flatMap Prod.snd).Nodup
  modules : (file.imports.map Prod.fst).Nodup
  foreign : M.name ∉ file.imports.map Prod.fst
  ascending : ∀ entry ∈ file.imports, entry.2.Pairwise (Text.le · ·)
  written : ∀ t ∈ M.types, ∀ c, t.Alternative c → ∃ i ∈ file.interfaces,
    i.name = (interfaceOf t c).name ∧ ∀ f ∈ Construct.declared t c, ∀ k, f.type = .declared k →
      (f.name, .named k.name f.multiplicity) ∈ i.properties
  denoted : ∀ t ∈ M.types, ∀ k, t.Mentions k → (∃ t' ∈ m.types, t'.key = k) ∧
    ∀ t' ∈ m.types, file.Denotes M.name k.name t' ↔ t'.key = k

variable {t : TypeDef} {c : Option Constructor} {name : String}

theorem mem_alternatives : c ∈ alternatives t ↔ t.Alternative c := by
  unfold alternatives
  constructor
  · intro h
    cases hshape : t.shape with
    | product fields =>
      rw [hshape, List.mem_singleton] at h
      exact h ▸ .product hshape
    | sum cs attributes =>
      rw [hshape] at h
      obtain ⟨c, hc, rfl⟩ := List.mem_map.mp h
      exact .sum hshape hc
  · intro h
    cases h with
    | product hshape => simp [hshape]
    | sum hshape hc => simpa [hshape] using hc

/-- The names that a file declares are those of the types of its module. -/
theorem declares_iff {M : Module} {file : SourceFile} (hunions : file.unions = sumUnions M)
    (hinterfaces : file.interfaces =
      M.types.flatMap fun t => (alternatives t).map (interfaceOf t)) :
    file.Declares name ↔ ∃ t ∈ M.types, t.name = name := by
  unfold SourceFile.Declares
  have hnames : (sumUnions M).map Union.name =
      (M.types.filter (·.kind = .sum)).map TypeDef.name := List.map_map
  simp only [hunions, hinterfaces, hnames, List.mem_map, List.mem_filter, List.mem_flatMap,
    mem_alternatives, decide_eq_true_eq]
  constructor
  · rintro (⟨t, ⟨ht, -⟩, hname⟩ | ⟨_, ⟨t, ht, c, hc, rfl⟩, hname, hliteral⟩)
    · exact ⟨t, ht, hname⟩
    · cases c with
      | none => exact ⟨t, ht, hname⟩
      | some c => exact absurd List.mem_cons_self (hliteral c.name)
  · rintro ⟨t, ht, hname⟩
    cases hshape : t.shape with
    | sum cs attributes =>
      exact .inl ⟨t, ⟨ht, by rw [TypeDef.kind, hshape, TypeShape.kind]⟩, hname⟩
    | product fields =>
      refine .inr ⟨_, ⟨t, ht, none, .product hshape, rfl⟩, hname, fun label h => ?_⟩
      obtain ⟨f, -, hf⟩ := List.mem_map.mp h
      cases (Prod.mk.inj hf).2

end Declarations

namespace Model

open Declarations

variable {m : Model} {next : Nat} {M : Module} {t : TypeDef} {k : TypeKey} {name : String}

/-- A type of a model is in the module of its name. -/
theorem Sound.mem_types_of_module_eq (h : m.Sound next) (hM : M ∈ m.modules) (ht : t ∈ m.types)
    (hname : t.module = M.name) : t ∈ M.types := by
  obtain ⟨M', hM', htM'⟩ := List.mem_flatMap.mp ht
  have hname' : t.module = M'.name := ((h.modules M' hM').1.key t htM').2
  have heq : M' = M := List.inj_on_of_nodup_map h.names hM' hM (hname'.symm.trans hname)
  exact heq ▸ htM'

theorem Reachable.exists_of_uses (h : m.Reachable next) (hM : M ∈ m.modules) (hk : M.Uses k) :
    ∃ t ∈ m.types, t.key = k := by
  obtain ⟨t, ht, hk⟩ := hk
  have htm : t ∈ m.types := List.mem_flatMap.mpr ⟨M, hM, ht⟩
  rcases hk with hk | hk
  · exact ⟨t, htm, hk⟩
  · exact h.sound.closed t htm k (h.refersTo htm hk)

/-- The names in a declaration file are words. -/
theorem Reachable.worded (h : m.Reachable next) (hM : M ∈ m.modules) : Worded M where
  name := h.sound.words M hM
  named := h.named M hM
  references t ht k hk := by
    obtain ⟨t', ht', rfl⟩ := h.exists_of_uses hM ⟨t, ht, .inr hk⟩
    obtain ⟨M', hM', htM'⟩ := List.mem_flatMap.mp ht'
    refine ⟨?_, (h.named_type ht').word⟩
    rw [((h.sound.modules M' hM').1.key t' htM').2]
    exact h.sound.words M' hM'

theorem Reachable.mem_foreignTypes_iff (h : m.Reachable next) (hM : M ∈ m.modules) :
    k ∈ foreignTypes M ↔ k.module ≠ M.name ∧ ∃ t ∈ M.types, t.Mentions k := by
  rw [mem_foreignTypes]
  refine and_congr_right fun _ => exists_congr fun t => and_congr_right fun ht => ?_
  constructor
  · rintro ⟨f, hf, htype⟩
    exact ⟨f, List.mem_append_left _ hf, htype⟩
  · intro hk
    obtain ⟨c, hc, f, hf, htype⟩ := h.refersTo (List.mem_flatMap.mpr ⟨M, hM, ht⟩) hk
    exact ⟨f, TypeDef.mem_allFields.mpr ⟨c, hc, hf⟩, htype⟩

/-- What is imported under a name is what the module means by it. -/
theorem Reachable.module_eq_of_mem_imports (h : m.Reachable next) (hM : M ∈ m.modules)
    (hk : M.Uses k) {entry : String × List String} (hentry : entry ∈ imports M)
    (hname : k.name ∈ entry.2) : k.module = entry.1 ∧ k.module ≠ M.name := by
  obtain ⟨k', hk', hmodule, heq⟩ := (mem_names hentry).mp hname
  obtain ⟨hforeign, t, ht, hmentions⟩ := (h.mem_foreignTypes_iff hM).mp hk'
  obtain rfl := h.eq_of_name_eq hM ⟨t, ht, .inr hmentions⟩ hk heq
  exact ⟨hmodule, hforeign⟩

/-- No name is imported twice. -/
theorem Reachable.nodup_imported (h : m.Reachable next) (hM : M ∈ m.modules) :
    ((imports M).flatMap Prod.snd).Nodup := by
  refine List.nodup_flatMap.mpr ⟨fun entry => nodup_names, ?_⟩
  refine (List.pairwise_map.mp (nodup_modules M)).imp_of_mem fun hentry hentry' hne => ?_
  intro name hname hname'
  obtain ⟨k, hk, hmodule, rfl⟩ := (mem_names hentry).mp hname
  obtain ⟨-, t, ht, hmentions⟩ := (h.mem_foreignTypes_iff hM).mp hk
  obtain ⟨hmodule', -⟩ := h.module_eq_of_mem_imports hM ⟨t, ht, .inr hmentions⟩ hentry' hname'
  exact hne (hmodule.symm.trans hmodule')

/-- A type that a module uses is its own, or imported from the file of another module. -/
theorem Reachable.own_or_imported (h : m.Reachable next) (hM : M ∈ m.modules) (hk : M.Uses k) :
    (∃ t ∈ M.types, t.key = k) ∨ k.module ≠ M.name ∧
      ∃ entry ∈ imports M, entry.1 = k.module ∧ k.name ∈ entry.2 := by
  obtain ⟨t, ht, rfl⟩ := h.exists_of_uses hM hk
  by_cases hmodule : t.key.module = M.name
  · exact .inl ⟨t, h.sound.mem_types_of_module_eq hM ht hmodule, rfl⟩
  · obtain ⟨t', ht', hk⟩ := hk
    rcases hk with hk | hk
    · exact absurd ((congrArg TypeKey.module hk).symm.trans
        ((h.sound.modules M hM).1.key t' ht').2) hmodule
    · exact .inr ⟨hmodule, exists_mem_imports
        ((h.mem_foreignTypes_iff hM).mpr ⟨hmodule, t', ht', hk⟩)⟩

/-- In the file of a module the name of a type that the module uses stands for that type. -/
theorem Reachable.denotes_iff (h : m.Reachable next) (hM : M ∈ m.modules) (hk : M.Uses k)
    {file : SourceFile} (himports : file.imports = imports M)
    (hdeclares : ∀ name, file.Declares name ↔ ∃ t ∈ M.types, t.name = name) (ht : t ∈ m.types) :
    file.Denotes M.name k.name t ↔ t.key = k := by
  constructor
  · rintro ⟨hname, ⟨-, hmodule⟩ | ⟨entry, hentry, hmem, hmodule⟩⟩
    · have htM := h.sound.mem_types_of_module_eq hM ht hmodule
      exact h.eq_of_name_eq hM ⟨t, htM, .inl rfl⟩ hk hname
    · rw [himports] at hentry
      obtain ⟨t', ht', rfl⟩ := h.exists_of_uses hM hk
      obtain ⟨hmodule', -⟩ := h.module_eq_of_mem_imports hM hk hentry hmem
      have hid : t.id = t'.id := by
        show t.module ++ "." ++ t.name = _
        rw [hmodule, hname, ← hmodule']
        rfl
      rw [h.sound.eq_of_id_eq ht' ht hid]
  · rintro rfl
    refine ⟨rfl, ?_⟩
    rcases h.own_or_imported hM hk with ⟨t', ht', hkey⟩ | ⟨-, entry, hentry, hmodule, hname⟩
    · have hmodule : t.module = M.name :=
        (congrArg TypeKey.module hkey).symm.trans ((h.sound.modules M hM).1.key t' ht').2
      exact .inl ⟨(hdeclares _).mpr ⟨t', ht', congrArg TypeKey.name hkey⟩, hmodule⟩
    · exact .inr ⟨entry, himports ▸ hentry, hname, hmodule.symm⟩

/-- The declaration file of a module of a model made by loads, read as text: each reference to a
type of another module is covered by one import, which is from the file of this very module; nothing
else is imported, nothing that the file declares itself, nothing twice and nothing from the file
itself; and the name that is written for a field of a declared type stands for exactly this type. -/
theorem Reachable.scoped_moduleText (h : m.Reachable next) (hM : M ∈ m.modules) :
    (SourceFile.ofText (moduleText M)).Scoped m M := by
  rw [ofText_moduleText (h.worded hM)]
  refine ⟨fun t ht k hk hmodule => ⟨?_, ?_⟩, fun entry hentry => ⟨names_ne_nil hentry, ?_⟩,
    fun entry hentry t ht hname => ?_, h.nodup_imported hM, nodup_modules M, fun hmem => ?_,
    fun entry => pairwise_names, fun t ht c hc => ?_, fun t ht k hk => ⟨?_, ?_⟩⟩
  · obtain ⟨t', ht', rfl⟩ := h.exists_of_uses hM ⟨t, ht, .inr hk⟩
    obtain ⟨M', hM', htM'⟩ := List.mem_flatMap.mp ht'
    exact ⟨M', hM', ((h.sound.modules M' hM').1.key t' htM').2.symm, t', htM', rfl⟩
  · obtain ⟨entry, hentry, heq, hname⟩ :=
      exists_mem_imports ((h.mem_foreignTypes_iff hM).mpr ⟨hmodule, t, ht, hk⟩)
    refine ⟨entry, hentry, heq, hname, fun entry' hentry' hname' => ?_⟩
    obtain ⟨heq', -⟩ := h.module_eq_of_mem_imports hM ⟨t, ht, .inr hk⟩ hentry' hname'
    exact List.inj_on_of_nodup_map (nodup_modules M) hentry' hentry (heq'.symm.trans heq.symm)
  · intro name hname
    obtain ⟨k, hk, hmodule, hname⟩ := (mem_names hentry).mp hname
    obtain ⟨-, t, ht, hk⟩ := (h.mem_foreignTypes_iff hM).mp hk
    exact ⟨t, ht, k, hk, hmodule, hname⟩
  · obtain ⟨-, hforeign⟩ := h.module_eq_of_mem_imports hM ⟨t, ht, .inl rfl⟩ hentry hname
    exact hforeign ((h.sound.modules M hM).1.key t ht).2
  · obtain ⟨entry, hentry, hmodule⟩ := List.mem_map.mp hmem
    obtain ⟨⟨k, hk, heq⟩, -⟩ := mem_imports.mp hentry
    exact (mem_foreignTypes.mp hk).1 (heq.trans hmodule)
  · refine ⟨interfaceOf t c, ?_, rfl, fun f hf k hk => ?_⟩
    · exact List.mem_flatMap.mpr ⟨t, ht, List.mem_map_of_mem (mem_alternatives.mpr hc)⟩
    · have hproperty := List.mem_map_of_mem (f := propertyOf) hf
      rw [propertyOf, hk] at hproperty
      cases hc with
      | product _ => exact hproperty
      | sum _ _ => exact List.mem_cons_of_mem _ hproperty
  · exact h.exists_of_uses hM ⟨t, ht, .inr hk⟩
  · exact fun t' ht' => h.denotes_iff hM ⟨t, ht, .inr hk⟩ rfl (fun name => declares_iff rfl rfl) ht'

/-- The tree of `module n \x7b e = (expr x) f = E(e y) attributes (expr* r) \x7d`. -/
def Sample.usingTree : SchemaTree :=
  ⟨[⟨"n", ⟨1, 1⟩, [⟨"e", ⟨1, 12⟩, .product [⟨"x", "expr", .single, ⟨1, 17⟩⟩]⟩,
    ⟨"f", ⟨1, 25⟩, .sum [⟨"E", ⟨1, 29⟩, [⟨"y", "e", .single, ⟨1, 31⟩⟩]⟩]
      [⟨"r", "expr", .repeated, ⟨1, 48⟩⟩]⟩]⟩]⟩

theorem Sample.parse_eq_usingTree :
    SchemaTree.parse "module n \x7b e = (expr x) f = E(e y) attributes (expr* r) \x7d" =
      .ok usingTree := rfl

/-- Of the types that the second module refers to one is imported, and one is its own. -/
theorem Reachable.scoped_moduleText_using : ∃ loaded M, Sample.exprModel.load 1 none
      "module n \x7b e = (expr x) f = E(e y) attributes (expr* r) \x7d" = .ok loaded ∧
    M ∈ loaded.model.modules ∧ imports M = [("m", ["expr"])] ∧
    (SourceFile.ofText (moduleText M)).Scoped loaded.model M := by
  have hbase : Sample.exprModel.Reachable 1 := .load .empty (Nat.zero_le 0) Sample.load_eq_exprModel
  have hload : ∃ loaded M, Sample.exprModel.loadTree 1 none Sample.usingTree = .ok loaded ∧
      M ∈ loaded.model.modules ∧ imports M = [("m", ["expr"])] :=
    ⟨_, _, rfl, List.mem_cons_of_mem _ List.mem_cons_self, by cbv⟩
  obtain ⟨loaded, M, htree, hM, himports⟩ := hload
  have hload : Sample.exprModel.load 1 none
      "module n \x7b e = (expr x) f = E(e y) attributes (expr* r) \x7d" = .ok loaded := by
    rw [Model.load, Sample.parse_eq_usingTree, Outcome.ok_bind, htree]
  have hm : loaded.model.Reachable _ := .load hbase (Nat.le_refl 1) hload
  exact ⟨loaded, M, hload, hM, himports, hm.scoped_moduleText hM⟩

end Model

end Schemata
