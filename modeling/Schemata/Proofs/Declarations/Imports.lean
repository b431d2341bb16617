import Schemata.Declarations
import Schemata.Proofs.Model.References
import Schemata.Proofs.Lists

/-!
# What a module imports

A declaration file imports from the file of each other module that its module refers to, once
(`nodup_modules`), the names of the types that are referred to there (`mem_names`), each once and in
ascending order (`nodup_names`, `pairwise_names`).
-/

namespace Schemata.Declarations

variable {m : Module} {entry entry' : String × List String} {k : TypeKey} {name : String}

theorem mem_foreignTypes :
    k ∈ foreignTypes m ↔
      k.module ≠ m.name ∧ ∃ t ∈ m.types, ∃ f ∈ t.allFields, f.type = .declared k := by
  simp only [foreignTypes, List.mem_filterMap, List.mem_flatMap]
  constructor
  · rintro ⟨f, ⟨t, ht, hf⟩, hk⟩
    cases htype : f.type with
    | primitive p =>
      rw [htype] at hk
      cases hk
    | declared key =>
      simp only [htype] at hk
      split_ifs at hk with hown
      obtain rfl := Option.some.inj hk
      exact ⟨hown, t, ht, f, hf, htype⟩
  · rintro ⟨hown, t, ht, f, hf, htype⟩
    refine ⟨f, ⟨t, ht, hf⟩, ?_⟩
    simp only [htype, if_neg hown]

/-- The names that are imported from a module. -/
theorem mem_imports :
    entry ∈ imports m ↔ (∃ k ∈ foreignTypes m, k.module = entry.1) ∧
      entry.2 = Text.sort
        (((foreignTypes m).filter (·.module = entry.1)).map TypeKey.name).eraseDups := by
  simp only [imports, List.mem_map, List.mem_eraseDups]
  constructor
  · rintro ⟨_, hk, rfl⟩
    exact ⟨hk, rfl⟩
  · rintro ⟨hk, hnames⟩
    exact ⟨entry.1, hk, Prod.ext rfl hnames.symm⟩

theorem mem_names (h : entry ∈ imports m) :
    name ∈ entry.2 ↔ ∃ k ∈ foreignTypes m, k.module = entry.1 ∧ k.name = name := by
  rw [(mem_imports.mp h).2, (Text.sort_perm _).mem_iff]
  simp only [List.mem_eraseDups, List.mem_map, List.mem_filter, decide_eq_true_eq, and_assoc]

theorem names_ne_nil (h : entry ∈ imports m) : entry.2 ≠ [] := by
  obtain ⟨k, hk, hmodule⟩ := (mem_imports.mp h).1
  exact List.ne_nil_of_mem ((mem_names h).mpr ⟨k, hk, hmodule, rfl⟩)

theorem nodup_modules (m : Module) : ((imports m).map Prod.fst).Nodup := by
  rw [imports, List.map_map]
  simpa only [Function.comp_def, List.map_id'] using Lists.nodup_eraseDups _

theorem nodup_names (h : entry ∈ imports m) : entry.2.Nodup := by
  rw [(mem_imports.mp h).2]
  exact (Text.sort_perm _).nodup_iff.mpr (Lists.nodup_eraseDups _)

theorem pairwise_names (h : entry ∈ imports m) : entry.2.Pairwise (Text.le · ·) := by
  rw [(mem_imports.mp h).2]
  exact Text.pairwise_sort _

/-- A type that is referred to is imported from the file of its module. -/
theorem exists_mem_imports (h : k ∈ foreignTypes m) :
    ∃ entry ∈ imports m, entry.1 = k.module ∧ k.name ∈ entry.2 := by
  have hmodule : k.module ∈ (imports m).map Prod.fst := by
    simpa [imports] using ⟨k, h, rfl⟩
  obtain ⟨entry, hentry, hmodule⟩ := List.mem_map.mp hmodule
  exact ⟨entry, hentry, hmodule, (mem_names hentry).mpr ⟨k, h, hmodule.symm, rfl⟩⟩

end Schemata.Declarations
