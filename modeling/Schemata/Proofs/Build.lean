import Schemata.Build
import Schemata.Proofs.Config.Problems
import Schemata.Proofs.File.Trees
import Schemata.Proofs.Outcome

/-!
# Builds and the disk

A build leaves the disk as it is unless all its inputs can be read (`Build.gather_eq_ok`), and what
it then writes takes nothing away: `Build.keeps_run`, `Build.isTree_run`. The files that a plan has
watched are the input and, where it is a configuration that can be read, the schemas that it names
(`BuildPlan.sources`). Each of them exists after a build just if it existed before
(`BuildPlan.pathExists_run`).
-/

namespace Schemata

open Outcome (bind_eq_ok map_eq_ok)
open FilePath (IsPlace absolute)

/-! ## Gathering -/

namespace Build

variable {d d' : Disk} {options : BuildOptions} {directory file : String} {g g' : Gathered}

theorem gatherFile_eq_ok (h : gatherFile d directory g file = .ok g') :
    ∃ source, ∃ loaded : List Module, d.read file = .ok source ∧
      g'.outputs = g.outputs ++
        loaded.map fun m => ⟨outputPath directory m, Declarations.moduleText m⟩ := by
  unfold gatherFile at h
  cases hread : d.read file with
  | error e => rw [hread] at h; cases h
  | ok source =>
    rw [hread] at h
    dsimp only at h
    cases hload : g.model.load g.serial none source with
    | error e => rw [hload] at h; cases h
    | ok loaded =>
      rw [hload] at h
      cases h
      exact ⟨source, loaded.modules, rfl, rfl⟩

/-- What was gathered was read, and every output is for a module. -/
theorem gather_eq_ok (h : gather d options = .ok g) :
    (∀ file ∈ options.inputs, ∃ source, d.read file = .ok source) ∧
      ∀ o ∈ g.outputs, ∃ m, o.path = outputPath options.outputDir m := by
  refine Outcome.foldlM_reads
    (P := fun read g => (∀ file ∈ read, ∃ source, d.read file = .ok source) ∧
      ∀ o ∈ g.outputs, ∃ m, o.path = outputPath options.outputDir m) ?_ ?_ h
  · rintro g file read g' ⟨hread, hpaths⟩ hfile
    obtain ⟨source, loaded, hsource, houtputs⟩ := gatherFile_eq_ok hfile
    refine ⟨fun f hf => ?_, fun o ho => ?_⟩
    · rcases List.mem_append.mp hf with hf | hf
      · exact hread f hf
      · rw [List.mem_singleton.mp hf]
        exact ⟨source, hsource⟩
    · rw [houtputs] at ho
      rcases List.mem_append.mp ho with ho | ho
      · exact hpaths o ho
      · obtain ⟨m, -, rfl⟩ := List.mem_map.mp ho
        exact ⟨m, rfl⟩
  · simp

/-! ## Running -/

theorem isAbsolute_join {path : String} (h : FilePath.isAbsolute path) (name : String) :
    FilePath.isAbsolute (FilePath.join path name) := by
  have hfull : FilePath.isAbsolute (path ++ "/" ++ name) := by
    unfold FilePath.isAbsolute at h ⊢
    cases hlist : path.toList with
    | nil => rw [hlist] at h; cases h
    | cons c cs => simpa [hlist] using h
  have hne : path ≠ "" := by
    rintro rfl
    exact absurd h (by decide)
  rw [FilePath.join, if_neg hne, if_pos hfull]
  exact FilePath.isAbsolute_absolute _

theorem keeps_writeAll (d : Disk) (outputs : List Output) :
    d.Keeps (writeAll d outputs).2 := by
  induction outputs generalizing d with
  | nil => exact .refl d
  | cons o outputs ih =>
    rw [writeAll]
    cases hwrite : d.write o.path o.content with
    | error e => exact .refl d
    | ok d' => exact (Disk.keeps_of_write hwrite).trans (ih d')

theorem isTree_writeAll (h : d.IsTree) {outputs : List Output}
    (habs : ∀ o ∈ outputs, FilePath.isAbsolute o.path) : (writeAll d outputs).2.IsTree := by
  induction outputs generalizing d with
  | nil => exact h
  | cons o outputs ih =>
    obtain ⟨ho, houtputs⟩ := List.forall_mem_cons.mp habs
    rw [writeAll]
    cases hwrite : d.write o.path o.content with
    | error e => exact h
    | ok d' => exact ih (h.write ho hwrite) houtputs

/-- A build leaves the disk, or it has gathered all and has made a directory. -/
theorem run_cases (d : Disk) (options : BuildOptions) :
    (run d options).2 = d ∨
      ∃ g d', gather d options = .ok g ∧ d.makeDirectories options.outputDir = .ok d' ∧
        (run d options).2 = (writeAll d' g.outputs).2 := by
  unfold run
  cases hgather : gather d options with
  | error stop => cases stop <;> exact .inl rfl
  | ok g =>
    dsimp only
    cases hmake : d.makeDirectories options.outputDir with
    | error e => exact .inl rfl
    | ok d' =>
      refine .inr ⟨g, d', rfl, rfl, ?_⟩
      dsimp only
      generalize writeAll d' g.outputs = written
      obtain ⟨_ | _, _⟩ := written <;> rfl

theorem keeps_run (d : Disk) (options : BuildOptions) : d.Keeps (run d options).2 := by
  rcases run_cases d options with h | ⟨g, d', -, hmake, h⟩
  · rw [h]
    exact .refl d
  · rw [h]
    exact (Disk.keeps_of_makeDirectories hmake).trans (keeps_writeAll d' g.outputs)

theorem isTree_run (h : d.IsTree) (habs : FilePath.isAbsolute options.outputDir) :
    (run d options).2.IsTree := by
  rcases run_cases d options with hrun | ⟨g, d', hgather, hmake, hrun⟩
  · rwa [hrun]
  · rw [hrun]
    refine isTree_writeAll (h.makeDirectories habs hmake) fun o ho => ?_
    obtain ⟨m, hpath⟩ := (gather_eq_ok hgather).2 o ho
    rw [hpath]
    exact isAbsolute_join habs _

/-- Without one of its inputs a build changes nothing. -/
theorem run_of_not_exists (hfile : file ∈ options.inputs) (hmissing : ¬d.pathExists file) :
    (run d options).2 = d := by
  rcases run_cases d options with h | ⟨g, d', hgather, -, -⟩
  · exact h
  · obtain ⟨source, hread⟩ := (gather_eq_ok hgather).1 file hfile
    exact absurd (Disk.pathExists_of_read hread) hmissing

end Build

/-! ## Configurations -/

namespace Config

variable {read : Yaml.Reader} {current base text : String} {config : Config}

/-- The paths of a configuration are resolved. -/
theorem parse_paths (h : parse read current base text = .ok config) :
    (∀ file ∈ config.schemas, ∃ path,
        file = FilePath.resolve (FilePath.resolve current base) path) ∧
      ∃ path, config.outputDir = FilePath.resolve (FilePath.resolve current base) path := by
  obtain ⟨entries, -, -, hreads⟩ := of_parse_eq_ok h
  obtain ⟨files, -, hfiles⟩ := hreads.schemas
  refine ⟨fun file hfile => ?_, ?_⟩
  · rw [hfiles] at hfile
    obtain ⟨path, -, rfl⟩ := List.mem_map.mp hfile
    exact ⟨path, rfl⟩
  · rcases hreads.outputDir with ⟨-, houtput⟩ | ⟨path, -, houtput⟩
    · exact ⟨_, houtput⟩
    · exact ⟨path, houtput⟩

end Config

/-! ## Plans -/

namespace BuildPlan

variable {read : Yaml.Reader} {d : Disk} {input file : String} {outputDir fallback : Option String}
  {plan : BuildPlan} {config : Config}

/-- The files that a build of an input is made from: the input and, if it is a configuration that
can be read, the schemas that it names. -/
def sources (read : Yaml.Reader) (d : Disk) (input : String) : List String :=
  d.resolve input ::
    if isConfigPath input then
      match loadConfig read d input with
      | .ok config => config.schemas
      | .error _ => []
    else []

theorem loadConfig_eq_ok (h : loadConfig read d input = .ok config) :
    ∃ text, d.read input = .ok text ∧
      Config.parse read d.currentPath (FilePath.parent (d.resolve input)) text = .ok config := by
  unfold loadConfig at h
  cases hread : d.read input with
  | error e => rw [hread] at h; cases h
  | ok text =>
    rw [hread] at h
    dsimp only at h
    cases hparse : Config.parse read d.currentPath (FilePath.parent (d.resolve input)) text with
    | ok c =>
      rw [hparse] at h
      obtain rfl := Except.ok.inj h
      exact ⟨text, rfl, hparse⟩
    | error fault => rw [hparse] at h; cases fault <;> cases h

/-- Sources are resolved. -/
theorem exists_place_of_mem_sources (h : file ∈ sources read d input) :
    ∃ q, IsPlace q ∧ file = absolute q := by
  have hresolved : ∀ base path, ∃ q, IsPlace q ∧ FilePath.resolve base path = absolute q :=
    fun base path => ⟨_, FilePath.isPlace_target base path, FilePath.resolve_eq_absolute base path⟩
  rcases List.mem_cons.mp h with rfl | h
  · exact hresolved _ _
  · split at h
    · split at h
      · next config hload =>
        obtain ⟨text, -, hparse⟩ := loadConfig_eq_ok hload
        obtain ⟨path, rfl⟩ := (Config.parse_paths hparse).1 file h
        exact hresolved _ _
      · cases h
    · cases h

theorem watchFiles_of_make (h : make read d input outputDir fallback = .ok plan) :
    plan.watchFiles = sources read d input := by
  unfold make at h
  unfold sources
  split at h
  · next hconfig =>
    obtain ⟨config, hload, rfl⟩ := map_eq_ok.mp h
    rw [if_pos hconfig, hload]
    rfl
  · next hschema =>
    cases h
    rw [if_neg hschema]
    rfl

theorem sources_of_make_error {e : Failure} (h : make read d input outputDir fallback = .error e) :
    sources read d input = [d.resolve input] := by
  unfold make at h
  unfold sources
  split at h
  · next hconfig =>
    rw [if_pos hconfig]
    cases hload : loadConfig read d input with
    | error e => rfl
    | ok config => rw [hload] at h; cases h
  · cases h

theorem isAbsolute_outputDir (h : make read d input outputDir fallback = .ok plan) :
    FilePath.isAbsolute plan.build.outputDir := by
  unfold make at h
  split at h
  · obtain ⟨config, hload, rfl⟩ := map_eq_ok.mp h
    obtain ⟨text, -, hparse⟩ := loadConfig_eq_ok hload
    obtain ⟨path, hpath⟩ := (Config.parse_paths hparse).2
    have hconfig : FilePath.isAbsolute config.outputDir := hpath ▸ FilePath.isAbsolute_resolve _ _
    unfold ofConfig
    dsimp only
    split
    · exact hconfig
    · exact hconfig
    · exact FilePath.isAbsolute_resolve _ _
  · cases h
    exact FilePath.isAbsolute_resolve _ _

/-- Every source is an input of the build or was read for the plan. -/
theorem mem_inputs_or_exists (hd : d.IsTree) (h : make read d input outputDir fallback = .ok plan)
    (hfile : file ∈ sources read d input) : file ∈ plan.build.inputs ∨ d.pathExists file := by
  unfold make at h
  unfold sources at hfile
  split at h
  · next hconfig =>
    obtain ⟨config, hload, rfl⟩ := map_eq_ok.mp h
    rw [if_pos hconfig, hload] at hfile
    rcases List.mem_cons.mp hfile with rfl | hfile
    · obtain ⟨text, hread, -⟩ := loadConfig_eq_ok hload
      exact .inr (hd.pathExists_resolve (Disk.pathExists_of_read hread))
    · exact .inl hfile
  · next hschema =>
    cases h
    rw [if_neg hschema] at hfile
    exact .inl hfile

/-- A build makes no source exist that did not exist, and takes none away. -/
theorem pathExists_run (hd : d.IsTree) (h : make read d input outputDir fallback = .ok plan)
    (hfile : file ∈ sources read d input) :
    (Build.run d plan.build).2.pathExists file ↔ d.pathExists file := by
  constructor
  · intro hafter
    rcases mem_inputs_or_exists hd h hfile with hinput | hexists
    · by_contra hmissing
      rw [Build.run_of_not_exists hinput hmissing] at hafter
      exact hmissing hafter
    · exact hexists
  · exact (Build.keeps_run d plan.build).pathExists

end BuildPlan

end Schemata
