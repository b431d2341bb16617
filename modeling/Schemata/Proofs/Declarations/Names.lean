import Mathlib.Data.List.Pairwise
import Schemata.Proofs.Declarations.Scope

/-!
# The names that a declaration file introduces

A declaration file imports names, and it declares one for each interface and for each union. The
name of a constructor's interface joins two names with `__`, which both of them may contain, so it
can be the name of another declaration (`Module.Collides`). In a model made by loads this is the
only way in which a file can introduce a name twice, and without it each interface, each member of a
union and each type of a field denotes one declaration (`Model.Reachable.names_moduleText`). There
is no such collision if no name of a type contains `__` or ends with `_`
(`Model.Reachable.not_collides`).
-/

namespace Schemata

/-- The interface of a constructor is named like that of another type's constructor, or like a type
that the module uses. -/
inductive Module.Collides (M : Module) : Prop
  | constructors {t t' : TypeDef} {c c' : Constructor} : t ∈ M.types → t' ∈ M.types → t ≠ t' →
    c ∈ t.constructors → c' ∈ t'.constructors →
    Declarations.interfaceName t c = Declarations.interfaceName t' c' → M.Collides
  | type {t : TypeDef} {c : Constructor} {k : TypeKey} : t ∈ M.types → c ∈ t.constructors →
    M.Uses k → Declarations.interfaceName t c = k.name → M.Collides

namespace Declarations

/-- The names that a file imports and declares. -/
def SourceFile.names (file : SourceFile) : List String :=
  file.imports.flatMap Prod.snd ++
    (file.interfaces.map Interface.name ++ file.unions.map Union.name)

/-- There are no two underscores in a row in the name, not even if one more follows it. -/
def Separable (name : String) : Prop := ¬['_', '_'] <:+: name.toList ++ ['_']

instance : DecidablePred Separable := fun _ => inferInstanceAs (Decidable (¬_))

/-- The names of the interfaces of constructors. -/
def constructorNames (M : Module) : List String :=
  M.types.flatMap fun t => t.constructors.map (interfaceName t)

/-- The names of the types that a module imports and declares. -/
def usedNames (M : Module) : List String :=
  (imports M).flatMap Prod.snd ++ M.types.map TypeDef.name

variable {M : Module} {t t' : TypeDef} {c c' : Constructor} {name : String} {cs ds : List Char}

/-! ## Joined names -/

theorem toList_interfaceName (t : TypeDef) (c : Constructor) :
    (interfaceName t c).toList = t.name.toList ++ '_' :: '_' :: c.name.toList := by
  rw [interfaceName, String.toList_append, String.toList_append, List.append_assoc]
  rfl

/-- Where two underscores stand behind the rest of a name, nothing of the name is left. -/
theorem eq_nil_of_separable {front rest : List Char}
    (h : '_' :: '_' :: cs = rest ++ '_' :: '_' :: ds)
    (hname : ¬['_', '_'] <:+: (front ++ rest) ++ ['_']) : rest = [] := by
  match rest with
  | [] => rfl
  | [_] =>
    obtain ⟨rfl, -⟩ := List.cons.inj h
    exact absurd ⟨front, [], by simp⟩ hname
  | _ :: _ :: rest =>
    obtain ⟨rfl, hrest⟩ := List.cons.inj h
    obtain ⟨rfl, -⟩ := List.cons.inj hrest
    exact absurd ⟨front, rest ++ ['_'], by simp⟩ hname

/-- A joined name is read in one way if the names of types are separable. -/
theorem eq_of_interfaceName_eq (ht : Separable t.name) (ht' : Separable t'.name)
    (h : interfaceName t c = interfaceName t' c') : t.name = t'.name := by
  have hlist := congrArg String.toList h
  rw [toList_interfaceName, toList_interfaceName] at hlist
  refine String.toList_injective ?_
  -- the longer of the two names would hold the underscores behind the shorter one
  rcases List.append_eq_append_iff.mp hlist with ⟨rest, hname, hrest⟩ | ⟨rest, hname, hrest⟩
  · rw [Separable, hname] at ht'
    rw [hname, eq_nil_of_separable hrest ht', List.append_nil]
  · rw [Separable, hname] at ht
    rw [hname, eq_nil_of_separable hrest ht, List.append_nil]

theorem not_separable_interfaceName (t : TypeDef) (c : Constructor) :
    ¬Separable (interfaceName t c) := by
  rw [Separable, not_not, toList_interfaceName]
  exact ⟨t.name.toList, c.name.toList ++ ['_'], by simp⟩

/-! ## All names -/

/-- A type is introduced by its name, and by those of its constructors' interfaces. -/
theorem type_names_perm (t : TypeDef) :
    (((alternatives t).map (interfaceOf t)).map Interface.name ++
      if t.kind = .sum then [t.name] else []).Perm
        (t.name :: t.constructors.map (interfaceName t)) := by
  unfold alternatives TypeDef.kind TypeDef.constructors
  cases t.shape with
  | product => exact .refl _
  | sum cs =>
    rw [List.map_map, List.map_map]
    exact List.perm_append_comm

theorem names_perm (M : Module) :
    ((M.types.flatMap fun t => (alternatives t).map (interfaceOf t)).map Interface.name ++
      (sumUnions M).map Union.name).Perm (M.types.map TypeDef.name ++ constructorNames M) := by
  have hunions : (sumUnions M).map Union.name =
      M.types.flatMap fun t => if t.kind = .sum then [t.name] else [] := by
    rw [sumUnions_eq_flatMap, List.map_flatMap]
    refine List.flatMap_congr fun t _ => ?_
    split_ifs <;> rfl
  rw [hunions, constructorNames, List.perm_iff_count]
  intro name
  induction M.types with
  | nil => rfl
  | cons t ts ih =>
    have ht := (type_names_perm t).count_eq name
    simp only [List.flatMap_cons, List.map_append, List.map_cons, List.count_append,
      List.count_cons] at ht ih ⊢
    omega

/-- The file introduces the names of the types and those of the constructors' interfaces. -/
theorem names_ofText_perm (h : Worded M) :
    (SourceFile.ofText (moduleText M)).names.Perm (usedNames M ++ constructorNames M) := by
  rw [ofText_moduleText h, SourceFile.names, usedNames, List.append_assoc]
  exact (names_perm M).append_left _

theorem mem_constructorNames :
    name ∈ constructorNames M ↔ ∃ t ∈ M.types, ∃ c ∈ t.constructors, interfaceName t c = name := by
  simp only [constructorNames, List.mem_flatMap, List.mem_map]

/-- The members of the unions of a file are interfaces of constructors. -/
theorem mem_constructorNames_of_mem_members (h : Worded M) {u : Union}
    (hu : u ∈ (SourceFile.ofText (moduleText M)).unions) (hname : name ∈ u.members) :
    name ∈ constructorNames M := by
  rw [ofText_moduleText h] at hu
  obtain ⟨t, ht, rfl⟩ := List.mem_map.mp hu
  obtain ⟨c, hc, rfl⟩ := List.mem_map.mp hname
  exact mem_constructorNames.mpr ⟨t, (List.mem_filter.mp ht).1, c, hc, rfl⟩

end Declarations

namespace Model

open Declarations

variable {m : Model} {next : Nat} {M : Module} {name : String}

/-- The names of the types that a module uses are those that it imports and declares. -/
theorem Reachable.mem_usedNames_iff (h : m.Reachable next) (hM : M ∈ m.modules) :
    name ∈ usedNames M ↔ ∃ k, M.Uses k ∧ k.name = name := by
  rw [usedNames, List.mem_append, List.mem_flatMap, List.mem_map]
  constructor
  · rintro (⟨entry, hentry, hname⟩ | ⟨t, ht, rfl⟩)
    · obtain ⟨k, hk, -, rfl⟩ := (mem_names hentry).mp hname
      obtain ⟨-, t, ht, hk⟩ := (h.mem_foreignTypes_iff hM).mp hk
      exact ⟨k, ⟨t, ht, .inr hk⟩, rfl⟩
    · exact ⟨t.key, ⟨t, ht, .inl rfl⟩, rfl⟩
  · rintro ⟨k, hk, rfl⟩
    rcases h.own_or_imported hM hk with ⟨t, ht, rfl⟩ | ⟨-, entry, hentry, -, hname⟩
    · exact .inr ⟨t, ht, rfl⟩
    · exact .inl ⟨entry, hentry, hname⟩

theorem Reachable.nodup_usedNames (h : m.Reachable next) (hM : M ∈ m.modules) :
    (usedNames M).Nodup := by
  refine List.nodup_append.mpr ⟨h.nodup_imported hM, (h.named M hM).names, ?_⟩
  rintro name hname _ hown rfl
  obtain ⟨entry, hentry, hname⟩ := List.mem_flatMap.mp hname
  obtain ⟨t, ht, rfl⟩ := List.mem_map.mp hown
  obtain ⟨-, hforeign⟩ := h.module_eq_of_mem_imports hM ⟨t, ht, .inl rfl⟩ hentry hname
  exact hforeign ((h.sound.modules M hM).1.key t ht).2

/-- The names of the constructors' interfaces are different just if those of different types are. -/
theorem Reachable.nodup_constructorNames_iff (h : m.Reachable next) (hM : M ∈ m.modules) :
    (constructorNames M).Nodup ↔ ∀ t ∈ M.types, ∀ t' ∈ M.types, t ≠ t' → ∀ c ∈ t.constructors,
      ∀ c' ∈ t'.constructors, interfaceName t c ≠ interfaceName t' c' := by
  have hown : ∀ t ∈ M.types, (t.constructors.map (interfaceName t)).Nodup := by
    intro t ht
    have hnames := (h.sound.distinct t (List.mem_flatMap.mpr ⟨M, hM, ht⟩)).constructors
    refine List.Nodup.map_on (fun c hc c' hc' heq => ?_) (.of_map _ hnames)
    have hlist := congrArg String.toList heq
    rw [toList_interfaceName, toList_interfaceName] at hlist
    have hname := (List.cons.inj (List.cons.inj (List.append_cancel_left hlist)).2).2
    exact List.inj_on_of_nodup_map hnames hc hc' (String.toList_injective hname)
  have htypes : M.types.Nodup := .of_map _ (h.named M hM).names
  rw [constructorNames, List.nodup_flatMap, and_iff_right hown]
  constructor
  · intro hpairwise t ht t' ht' hne c hc c' hc' heq
    have : Std.Symm (Function.onFun List.Disjoint fun t : TypeDef =>
        t.constructors.map (interfaceName t)) := ⟨fun _ _ h _ hname hname' => h hname' hname⟩
    exact hpairwise.forall ht ht' hne (List.mem_map_of_mem hc) (heq ▸ List.mem_map_of_mem hc')
  · intro hne
    refine htypes.pairwise_of_forall_ne fun t ht t' ht' htt' name hname hname' => ?_
    obtain ⟨c, hc, rfl⟩ := List.mem_map.mp hname
    obtain ⟨c', hc', heq⟩ := List.mem_map.mp hname'
    exact hne t ht t' ht' htt' c hc c' hc' heq.symm

/-- The names that a file introduces are different just if no name collides with that of a
constructor's interface. -/
theorem Reachable.nodup_names_iff (h : m.Reachable next) (hM : M ∈ m.modules) :
    (SourceFile.ofText (moduleText M)).names.Nodup ↔ ¬M.Collides := by
  rw [(names_ofText_perm (h.worded hM)).nodup_iff, List.nodup_append,
    and_iff_right (h.nodup_usedNames hM), h.nodup_constructorNames_iff hM]
  constructor
  · rintro ⟨hconstructors, htypes⟩ (⟨ht, ht', hne, hc, hc', heq⟩ | ⟨ht, hc, hk, heq⟩)
    · exact hconstructors _ ht _ ht' hne _ hc _ hc' heq
    · exact htypes _ ((h.mem_usedNames_iff hM).mpr ⟨_, hk, rfl⟩) _
        (mem_constructorNames.mpr ⟨_, ht, _, hc, rfl⟩) heq.symm
  · intro hcollides
    refine ⟨fun t ht t' ht' hne c hc c' hc' heq =>
      hcollides (.constructors ht ht' hne hc hc' heq), fun name hname name' hname' heq => ?_⟩
    obtain ⟨k, hk, rfl⟩ := (h.mem_usedNames_iff hM).mp hname
    obtain ⟨t, ht, c, hc, rfl⟩ := mem_constructorNames.mp hname'
    exact hcollides (.type ht hc hk heq.symm)

/-- No name collides if the names of the types can be told from what stands behind them. -/
theorem Reachable.not_collides (h : m.Reachable next) (hM : M ∈ m.modules)
    (hnames : ∀ k, M.Uses k → Separable k.name) : ¬M.Collides := by
  rintro (⟨ht, ht', hne, hc, hc', heq⟩ | ⟨-, -, hk, heq⟩)
  · have hname := eq_of_interfaceName_eq (hnames _ ⟨_, ht, .inl rfl⟩)
      (hnames _ ⟨_, ht', .inl rfl⟩) heq
    exact hne ((h.sound.modules M hM).1.eq_of_name_eq ht ht' hname)
  · exact not_separable_interfaceName _ _ (heq ▸ hnames _ hk)

/-- The names that the file of a module introduces, read as text, are those of the types that it
imports or declares and those of the constructors' interfaces. They are different just if no name of
a constructor's interface is given to something else; this is so if no type that the module uses has
two underscores in a row in its name or one at its end. Then each interface, each member of a union
and each type of a field is one of these names, so it denotes one declaration. -/
theorem Reachable.names_moduleText (h : m.Reachable next) (hM : M ∈ m.modules) :
    (SourceFile.ofText (moduleText M)).names.Perm (usedNames M ++ constructorNames M) ∧
    ((SourceFile.ofText (moduleText M)).names.Nodup ↔ ¬M.Collides) ∧
    ((∀ k, M.Uses k → Separable k.name) → ¬M.Collides) ∧
    (¬M.Collides →
      (∀ i ∈ (SourceFile.ofText (moduleText M)).interfaces,
        (SourceFile.ofText (moduleText M)).names.count i.name = 1) ∧
      (∀ u ∈ (SourceFile.ofText (moduleText M)).unions, ∀ name ∈ u.members,
        (SourceFile.ofText (moduleText M)).names.count name = 1) ∧
      ∀ t ∈ M.types, ∀ k, t.Mentions k →
        (SourceFile.ofText (moduleText M)).names.count k.name = 1) := by
  have hperm := names_ofText_perm (h.worded hM)
  refine ⟨hperm, h.nodup_names_iff hM, h.not_collides hM, fun hcollides => ?_⟩
  have hnodup := (h.nodup_names_iff hM).mpr hcollides
  refine ⟨fun i hi => List.count_eq_one_of_mem hnodup ?_, fun u hu name hname =>
    List.count_eq_one_of_mem hnodup ?_, fun t ht k hk => List.count_eq_one_of_mem hnodup ?_⟩
  · exact List.mem_append_right _ (List.mem_append_left _ (List.mem_map_of_mem hi))
  · exact hperm.mem_iff.mpr (List.mem_append_right _
      (mem_constructorNames_of_mem_members (h.worded hM) hu hname))
  · exact hperm.mem_iff.mpr (List.mem_append_left _
      ((h.mem_usedNames_iff hM).mpr ⟨k, ⟨t, ht, .inr hk⟩, rfl⟩))

theorem Sample.separable_of_uses_expr {k : TypeKey}
    (hk : Module.Uses ⟨0, "m", [Sample.expr]⟩ k) : Separable k.name := by
  have hm : Sample.exprModel.Reachable 1 := .load .empty (Nat.zero_le 0) Sample.load_eq_exprModel
  have himports : imports ⟨0, "m", [Sample.expr]⟩ = [] := by cbv
  have hnames : usedNames ⟨0, "m", [Sample.expr]⟩ = ["expr"] := by
    rw [usedNames, himports]
    rfl
  have hname := (hm.mem_usedNames_iff List.mem_cons_self).mpr ⟨k, hk, rfl⟩
  rw [hnames, List.mem_singleton] at hname
  rw [hname]
  decide

/-- The file of a module whose names are separable: its names are the type's and those of its two
interfaces. -/
theorem Reachable.names_moduleText_expr :
    Sample.exprModel.Reachable 1 ∧
    (SourceFile.ofText (moduleText ⟨0, "m", [Sample.expr]⟩)).names.Nodup ∧
    (SourceFile.ofText (moduleText ⟨0, "m", [Sample.expr]⟩)).names.count "expr__Neg" = 1 := by
  have hm : Sample.exprModel.Reachable 1 := .load .empty (Nat.zero_le 0) Sample.load_eq_exprModel
  have hM : (⟨0, "m", [Sample.expr]⟩ : Module) ∈ Sample.exprModel.modules := List.mem_cons_self
  obtain ⟨-, hnodup, hcollides, hcounts⟩ := hm.names_moduleText hM
  replace hcollides := hcollides fun _ => Sample.separable_of_uses_expr
  refine ⟨hm, hnodup.mpr hcollides,
    (hcounts hcollides).2.1 ⟨"expr", ["expr__Lit", "expr__Neg"]⟩ ?_ _ (by decide)⟩
  rw [ofText_moduleText (hm.worded hM)]
  decide

/-- `a = B`, next to the product type `a__B = (int x)`. -/
def Sample.collidingModule : Module :=
  ⟨0, "m", [⟨⟨0, "m", "a"⟩, ⟨1, 12⟩, .sum [⟨⟨0, "m", "a"⟩, "B", 0, [], ⟨1, 16⟩⟩] []⟩,
    ⟨⟨0, "m", "a__B"⟩, ⟨1, 18⟩, .product [⟨"x", 0, .primitive .int, .single, false, ⟨1, 26⟩⟩]⟩]⟩

theorem Sample.load_eq_collidingModule :
    (Model.empty none).load 0 none "module m \x7b a = B a__B = (int x) \x7d" =
      .ok ⟨⟨[collidingModule], defaultMaxDepth⟩, [collidingModule], []⟩ := rfl

/-- The interface of the constructor `B` has the name of the product type, so the file introduces
the name twice. -/
theorem exists_duplicate_name : ∃ loaded M,
    (Model.empty none).load 0 none "module m \x7b a = B a__B = (int x) \x7d" = .ok loaded ∧
    M ∈ loaded.model.modules ∧ (SourceFile.ofText (moduleText M)).names = ["a__B", "a__B", "a"] ∧
    ¬(SourceFile.ofText (moduleText M)).names.Nodup := by
  have hm := Reachable.load .empty (Nat.zero_le 0) Sample.load_eq_collidingModule
  have himports : imports Sample.collidingModule = [] := by cbv
  have hnames : (SourceFile.ofText (moduleText Sample.collidingModule)).names =
      ["a__B", "a__B", "a"] := by
    rw [ofText_moduleText (hm.worded List.mem_cons_self), himports]
    rfl
  refine ⟨_, Sample.collidingModule, Sample.load_eq_collidingModule, List.mem_cons_self, hnames, ?_⟩
  rw [hnames]
  decide

end Model

end Schemata
