import Mathlib.Data.List.Induction
import Schemata.Proofs.Model.References
import Schemata.Proofs.Model.Renumbering

/-!
# Chains of modules

In what is made of a tree, the references of a module lead to types of the module itself or of
earlier ones (`Module.Chain`). No cycle of types that embed each other can cross modules, then, and
the types of all modules together pass the check for finite values if and only if those of each
module pass it alone, where types of other modules are taken on trust
(`Module.Chain.check_eq_ok_iff`). Nor does the check depend on the numbers of the modules
(`Module.Chain.check_renumber_eq_ok_iff`).
-/

namespace Schemata

/-- All types that values of the types refer to are among them. -/
def TypeDef.Closed (types : List TypeDef) : Prop :=
  ∀ t ∈ types, ∀ k, t.RefersTo k → ∃ t' ∈ types, t'.key = k

/-- Modules of different names, whose references lead to the same module or an earlier one. -/
structure Module.Chain (Ms : List Module) : Prop where
  names : (Ms.map Module.name).Nodup
  sound : ∀ M ∈ Ms, M.Sound
  references : ∀ before M after, Ms = before ++ M :: after → ∀ t ∈ M.types, ∀ k, t.Mentions k →
    ∃ t' ∈ (before ++ [M]).flatMap Module.types, t'.key = k

/-! ## The check of types in two parts -/

/-- Types that refer to each other only have no values that rest on further types. -/
theorem TypeRef.HasValue.of_append {types types' : List TypeDef} (hclosed : TypeDef.Closed types)
    (hfresh : ∀ t ∈ types, t.key ∉ types'.map TypeDef.key) {t : TypeDef} (ht : t ∈ types)
    (h : (TypeRef.declared t.key).HasValue (types ++ types')) :
    (TypeRef.declared t.key).HasValue types := by
  have hall := h.induct (P := fun r => ∀ t ∈ types, r = .declared t.key → r.HasValue types)
    (fun p t _ hr => by cases hr) ?_
  · exact hall t ht rfl
  intro t' c ht' hc hfields t ht hr
  have hkey : t'.key = t.key := TypeRef.declared.inj hr
  rcases List.mem_append.mp ht' with hmem | hmem
  · refine TypeRef.hasValue_declared hmem hc fun f hf hm => ?_
    cases hf' : f.type with
    | primitive p => exact TypeRef.hasValue_primitive p
    | declared k =>
      obtain ⟨u, hu, rfl⟩ := hclosed t' hmem k ⟨c, hc, f, hf, hf'⟩
      exact hf' ▸ hfields f hf hm u hu hf'
  · exact absurd (hkey ▸ List.mem_map_of_mem hmem) (hfresh t ht)

namespace Representable

variable {types types' : List TypeDef}

theorem check_eq_ok_iff_of_closed (hclosed : TypeDef.Closed types) :
    check types = .ok () ↔ ∀ t ∈ types, (TypeRef.declared t.key).HasValue types := by
  show _ ↔ ∀ t ∈ types, (TypeRef.declared t.key).HasValue ([] ++ types)
  exact check_eq_ok_iff (by simp)
    (fun t ht c hc f hf k hk => hclosed t ht k ⟨c, hc, f, hf, hk⟩) (by simp)

/-- Where references lead back, types pass the check together if and only if the first ones do, and
the others do with the first ones taken on trust. -/
theorem check_append_eq_ok_iff (hclosed : TypeDef.Closed types)
    (hclosed' : TypeDef.Closed (types ++ types'))
    (hfresh : ∀ t ∈ types, t.key ∉ types'.map TypeDef.key) :
    check (types ++ types') = .ok () ↔ check types = .ok () ∧ check types' = .ok () := by
  have hrefs : ∀ t ∈ types', ∀ c, t.Alternative c → ∀ f ∈ Construct.declared t c, ∀ k,
      f.type = .declared k → ∃ t' ∈ types ++ types', t'.key = k :=
    fun t ht c hc f hf k hk => hclosed' t (List.mem_append_right _ ht) k ⟨c, hc, f, hf, hk⟩
  rw [check_eq_ok_iff_of_closed hclosed, check_eq_ok_iff_of_closed hclosed',
    List.forall_mem_append]
  constructor
  · rintro ⟨hfirst, hsecond⟩
    have hvalues := fun t ht => (hfirst t ht).of_append hclosed hfresh ht
    exact ⟨hvalues, (check_eq_ok_iff hvalues hrefs hfresh).mpr hsecond⟩
  · rintro ⟨hvalues, hcheck⟩
    exact ⟨fun t ht => (hvalues t ht).mono (List.subset_append_left _ _),
      (check_eq_ok_iff hvalues hrefs hfresh).mp hcheck⟩

end Representable

/-! ## Chains -/

namespace Module.Chain

variable {Ms : List Module} {M : Module}

theorem closed (h : Chain Ms) : TypeDef.Closed (Ms.flatMap Module.types) := by
  intro t ht k hk
  obtain ⟨M, hM, htM⟩ := List.mem_flatMap.mp ht
  obtain ⟨before, after, rfl⟩ := List.append_of_mem hM
  obtain ⟨t', ht', hkey⟩ := h.references before M after rfl t htM k hk.mentions
  refine ⟨t', ?_, hkey⟩
  rw [List.append_cons, List.flatMap_append]
  exact List.mem_append_left _ ht'

/-- A type is told apart from the others by its qualified name. -/
theorem eq_of_names_eq (h : Chain Ms) {t t' : TypeDef} (ht : t ∈ Ms.flatMap Module.types)
    (ht' : t' ∈ Ms.flatMap Module.types) (hmodule : t.module = t'.module)
    (hname : t.name = t'.name) : t = t' := by
  obtain ⟨M, hM, ht⟩ := List.mem_flatMap.mp ht
  obtain ⟨M', hM', ht'⟩ := List.mem_flatMap.mp ht'
  obtain ⟨hserial, hM_name⟩ := (h.sound M hM).key t ht
  obtain ⟨hserial', hM_name'⟩ := (h.sound M' hM').key t' ht'
  obtain rfl : M = M' :=
    List.inj_on_of_nodup_map h.names hM hM' (hM_name.symm.trans (hmodule.trans hM_name'))
  refine (h.sound M hM).unique t ht t' ht' ?_
  have hserials : t.key.serial = t'.key.serial := hserial.trans hserial'.symm
  obtain ⟨⟨_, _, _⟩, _, _⟩ := t
  obtain ⟨⟨_, _, _⟩, _, _⟩ := t'
  simp_all [TypeDef.module, TypeDef.name]

theorem init (h : Chain (Ms ++ [M])) : Chain Ms where
  names := (List.nodup_append.mp (List.map_append ▸ h.names)).1
  sound := (List.forall_mem_append.mp h.sound).1
  references before N after hsplit :=
    h.references before N (after ++ [M]) (by rw [hsplit, List.append_assoc]; rfl)

/-- The keys of the last module do not stand before it. -/
theorem key_notMem_last (h : Chain (Ms ++ [M])) :
    ∀ t ∈ Ms.flatMap Module.types, t.key ∉ M.types.map TypeDef.key := by
  intro t ht hmem
  obtain ⟨N, hN, ht⟩ := List.mem_flatMap.mp ht
  obtain ⟨t', ht', hkey⟩ := List.mem_map.mp hmem
  have hname : N.name = M.name := by
    rw [← ((h.sound N (List.mem_append_left _ hN)).key t ht).2, ← hkey]
    exact ((h.sound M (by simp)).key t' ht').2
  have hnames := h.names
  rw [List.map_append, List.nodup_append] at hnames
  exact hnames.2.2 _ (List.mem_map_of_mem hN) _ (by simp) hname

/-- The types of all modules pass the check if and only if those of each module do. -/
theorem check_eq_ok_iff (h : Chain Ms) :
    Representable.check (Ms.flatMap Module.types) = .ok () ↔
      ∀ M ∈ Ms, Representable.check M.types = .ok () := by
  induction Ms using List.reverseRecOn with
  | nil => exact ⟨fun _ => by simp, fun _ => rfl⟩
  | append_singleton Ms M ih =>
    have hall := h.closed
    rw [List.flatMap_append, List.flatMap_singleton] at hall ⊢
    rw [Representable.check_append_eq_ok_iff h.init.closed hall h.key_notMem_last, ih h.init,
      List.forall_mem_append, List.forall_mem_singleton]

end Module.Chain

/-! ## Chains with other numbers -/

variable (number : String → Nat)

theorem TypeDef.Mentions.of_renumber {t : TypeDef} {k : TypeKey}
    (h : (t.renumber number).Mentions k) : ∃ k', t.Mentions k' ∧ k = k'.renumber number := by
  obtain ⟨f, hf, htype⟩ := h
  rw [TypeDef.allFields_renumber, TypeDef.attributes_renumber, ← List.map_append] at hf
  obtain ⟨f, hmem, rfl⟩ := List.mem_map.mp hf
  rw [Field.renumber] at htype
  cases hf' : f.type with
  | primitive p =>
    rw [hf'] at htype
    cases htype
  | declared k' =>
    rw [hf'] at htype
    exact ⟨k', ⟨f, hmem, hf'⟩, (TypeRef.declared.inj htype).symm⟩

theorem Field.Numbered.renumber {fs : List Field} (h : Field.Numbered fs) :
    Field.Numbered (fs.map (Field.renumber number)) := by
  rw [Field.Numbered, List.map_map, List.length_map]
  exact h

theorem TypeDef.Numbered.renumber {t : TypeDef} (h : t.Numbered) :
    (t.renumber number).Numbered where
  fields := by
    rw [TypeDef.fields_renumber]
    exact h.fields.renumber number
  constructors := by
    rw [TypeDef.constructors_renumber, List.forall_mem_map]
    intro c hc
    obtain ⟨hfields, howner⟩ := h.constructors c hc
    exact ⟨hfields.renumber number, congrArg (TypeKey.renumber number) howner⟩
  tags := by
    rw [TypeDef.constructors_renumber, List.map_map, List.length_map]
    exact h.tags

theorem Module.Sound.renumber {M : Module} (h : M.Sound) : (M.renumber number).Sound where
  key := by
    rw [Module.renumber, List.forall_mem_map]
    intro t ht
    have hname := (h.key t ht).2
    exact ⟨congrArg number hname, hname⟩
  unique := by
    rw [Module.renumber, List.forall_mem_map]
    intro t ht
    rw [List.forall_mem_map]
    intro t' ht' hkey
    obtain ⟨hserial, hmodule⟩ := h.key t ht
    obtain ⟨hserial', hmodule'⟩ := h.key t' ht'
    refine congrArg (TypeDef.renumber number) (h.unique t ht t' ht' ?_)
    have hname := congrArg TypeKey.name hkey
    change t.key.name = t'.key.name at hname
    obtain ⟨⟨_, _, _⟩, _, _⟩ := t
    obtain ⟨⟨_, _, _⟩, _, _⟩ := t'
    simp_all
  numbered := by
    rw [Module.renumber, List.forall_mem_map]
    exact fun t ht => (h.numbered t ht).renumber number

namespace Module.Chain

variable {Ms : List Module}

theorem types_renumber (Ms : List Module) :
    (Ms.map (Module.renumber number)).flatMap Module.types =
      (Ms.flatMap Module.types).map (TypeDef.renumber number) := by
  rw [List.flatMap_map, List.map_flatMap]
  rfl

theorem renumber (h : Chain Ms) : Chain (Ms.map (Module.renumber number)) where
  names := by
    rw [List.map_map]
    exact h.names
  sound := by
    rw [List.forall_mem_map]
    exact fun M hM => (h.sound M hM).renumber number
  references before M after hsplit := by
    obtain ⟨before, rest, rfl, rfl, hrest⟩ := List.map_eq_append_iff.mp hsplit
    obtain ⟨M, after, rfl, rfl, rfl⟩ := List.map_eq_cons_iff.mp hrest
    intro t ht k hk
    obtain ⟨t, hmem, rfl⟩ := List.mem_map.mp ht
    obtain ⟨k, hmentions, rfl⟩ := hk.of_renumber
    obtain ⟨t', ht', rfl⟩ := h.references before M after rfl t hmem k hmentions
    refine ⟨t'.renumber number, ?_, rfl⟩
    rw [← List.map_singleton, ← List.map_append, types_renumber]
    exact List.mem_map_of_mem ht'

theorem eq_of_renumber_eq (h : Chain Ms) {t t' : TypeDef} (ht : t ∈ Ms.flatMap Module.types)
    (ht' : t' ∈ Ms.flatMap Module.types)
    (hkey : t.key.renumber number = t'.key.renumber number) : t = t' := by
  have hmodule := congrArg TypeKey.module hkey
  have hname := congrArg TypeKey.name hkey
  exact h.eq_of_names_eq ht ht' hmodule hname

/-- The check does not depend on the numbers of the modules. -/
theorem check_renumber_eq_ok_iff (h : Chain Ms) :
    Representable.check ((Ms.map (Module.renumber number)).flatMap Module.types) = .ok () ↔
      Representable.check (Ms.flatMap Module.types) = .ok () := by
  rw [Representable.check_eq_ok_iff_of_closed h.closed,
    Representable.check_eq_ok_iff_of_closed (h.renumber number).closed, types_renumber,
    List.forall_mem_map]
  refine forall₂_congr fun t ht => ⟨fun hvalue => ?_, fun hvalue => hvalue.renumber⟩
  exact hvalue.of_renumber (fun t ht t' ht' => h.eq_of_renumber_eq number ht ht')
    (fun t ht c hc f hf k hk => h.closed t ht k ⟨c, hc, f, hf, hk⟩) ht

end Module.Chain

end Schemata
