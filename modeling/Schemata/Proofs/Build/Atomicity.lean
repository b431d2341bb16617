import Mathlib.Data.List.Induction
import Schemata.Proofs.Build
import Schemata.Proofs.Declarations.Scope
import Schemata.Proofs.File.Writing

/-!
# All or nothing

The inputs of a build load one after the other, each on top of those before it (`Build.Loads`), or
one of them is the first that does not (`Build.Fails`). In the second case a build leaves the disk
as it is and answers with this input. In the first, it writes one file for each module of the model
and touches no other file (`Build.Writes`). Both are put together in `Build.run_all_or_nothing`.

That the files are distinct, and that they import from one another only, is owed to the model: it is
made by loads (`Build.Loads.reachable`).
-/

namespace Schemata

open Declarations (moduleText imports SourceFile ofText_moduleText declares_iff mem_imports mem_names)
open FilePath (IsName join)

variable {d d' : Disk} {directory file path : String} {files : List String} {m : Model} {next : Nat}
  {warnings : List FileDiagnostic} {limit : Option Number} {M : Module}

/-! ## Imports within a model -/

/-- What a module imports is declared by another module of the model. -/
theorem Model.Reachable.exists_of_mem_imports (h : m.Reachable next) (hM : M ∈ m.modules)
    {entry : String × List String} (hentry : entry ∈ imports M) :
    ∃ M' ∈ m.modules, M'.name = entry.1 ∧ M' ≠ M ∧
      ∀ name ∈ entry.2, ∃ t ∈ M'.types, t.name = name := by
  have hhome : ∀ k ∈ Declarations.foreignTypes M, k.module ≠ M.name ∧
      ∃ M' ∈ m.modules, M'.name = k.module ∧ ∃ t ∈ M'.types, t.name = k.name := by
    intro k hk
    obtain ⟨hforeign, t, ht, hmentions⟩ := (h.mem_foreignTypes_iff hM).mp hk
    obtain ⟨t', ht', rfl⟩ := h.exists_of_uses hM ⟨t, ht, .inr hmentions⟩
    obtain ⟨M', hM', htM'⟩ := List.mem_flatMap.mp ht'
    exact ⟨hforeign, M', hM', ((h.sound.modules M' hM').1.key t' htM').2.symm, t', htM', rfl⟩
  obtain ⟨k, hk, hmodule⟩ := (mem_imports.mp hentry).1
  obtain ⟨hforeign, M', hM', hname, -⟩ := hhome k hk
  refine ⟨M', hM', hname.trans hmodule, ?_, fun name hmem => ?_⟩
  · rintro rfl
    exact hforeign hname.symm
  · obtain ⟨k', hk', hmodule', rfl⟩ := (mem_names hentry).mp hmem
    obtain ⟨-, M'', hM'', hname', t, ht, htname⟩ := hhome k' hk'
    have hsame : M'' = M' := List.inj_on_of_nodup_map h.sound.names hM'' hM'
      (by rw [hname', hmodule', hname, hmodule])
    exact ⟨t, hsame ▸ ht, htname⟩

namespace Build

/-! ## Loading the inputs -/

/-- The files can be read and load, each on top of the model of those before it. -/
inductive Loads (d : Disk) (limit : Option Number) :
    List String → Model → Nat → List FileDiagnostic → Prop
  | nil : Loads d limit [] (.empty limit) 0 []
  | concat {files m next warnings file source loaded} :
    Loads d limit files m next warnings → d.read file = .ok source →
    m.load next none source = .ok loaded →
    Loads d limit (files ++ [file]) loaded.model (next + loaded.modules.length)
      (warnings ++ loaded.warnings.map fun w => ⟨file, w⟩)

/-- Behind files that load, the file cannot be read or does not load. The answer says so, with the
warnings of the files before it. -/
inductive Fails (d : Disk) (limit : Option Number) (before : List String) (file : String) :
    Except FileError BuildResult → Prop
  | unreadable {m next warnings error} :
    Loads d limit before m next warnings → d.read file = .error error →
    Fails d limit before file (.error error)
  | unloadable {m next warnings source error} :
    Loads d limit before m next warnings → d.read file = .ok source →
    m.load next none source = .error error →
    Fails d limit before file (.ok (.failed file error warnings))

/-- All files load, or there is a first that fails. -/
theorem loads_or_fails (d : Disk) (limit : Option Number) (files : List String) :
    (∃ m next warnings, Loads d limit files m next warnings) ∨
      ∃ before file after answer, files = before ++ file :: after ∧
        Fails d limit before file answer := by
  induction files using List.reverseRecOn with
  | nil => exact .inl ⟨_, _, _, .nil⟩
  | append_singleton files file ih =>
    rcases ih with ⟨m, next, warnings, hloads⟩ | ⟨before, first, after, answer, rfl, hfails⟩
    · cases hread : d.read file with
      | error e => exact .inr ⟨files, file, [], _, rfl, .unreadable hloads hread⟩
      | ok source =>
        cases hload : m.load next none source with
        | error e => exact .inr ⟨files, file, [], _, rfl, .unloadable hloads hread hload⟩
        | ok loaded => exact .inl ⟨_, _, _, .concat hloads hread hload⟩
    · exact .inr ⟨before, first, after ++ [file], answer, by simp, hfails⟩

theorem Loads.reachable (h : Loads d limit files m next warnings) : m.Reachable next := by
  induction h with
  | nil => exact .empty
  | concat _ _ hload ih => exact .load ih (Nat.le_refl _) hload

/-- The declaration files of modules. -/
def outputs (directory : String) (modules : List Module) : List Output :=
  modules.map fun M => ⟨outputPath directory M, moduleText M⟩

theorem outputs_append (directory : String) (modules modules' : List Module) :
    outputs directory (modules ++ modules') =
      outputs directory modules ++ outputs directory modules' :=
  List.map_append

/-- Files that load are gathered, with an output for each module of their model. -/
theorem Loads.gather (h : Loads d limit files m next warnings) (directory : String) :
    files.foldlM (gatherFile d directory) ⟨.empty limit, 0, [], []⟩ =
      .ok ⟨m, next, outputs directory m.modules, warnings⟩ := by
  induction h with
  | nil => rfl
  | concat _ hread hload ih =>
    obtain ⟨-, -, -, -, hmodules⟩ := Model.of_load_eq_ok hload
    rw [List.foldlM_append, ih, Outcome.ok_bind, List.foldlM_cons, gatherFile, hread]
    dsimp only
    rw [hload, hmodules, outputs_append]
    rfl

/-- A build with an input that fails answers so and leaves the disk. -/
theorem Fails.run_eq {options : BuildOptions} {before after : List String}
    {answer : Except FileError BuildResult} (h : Fails d options.maxPrintDepth before file answer)
    (hinputs : options.inputs = before ++ file :: after) : run d options = (answer, d) := by
  cases h with
  | unreadable hloads hread =>
    rw [run, Build.gather, hinputs, List.foldlM_append, hloads.gather, Outcome.ok_bind,
      List.foldlM_cons, gatherFile, hread]
    rfl
  | unloadable hloads hread hload =>
    rw [run, Build.gather, hinputs, List.foldlM_append, hloads.gather, Outcome.ok_bind,
      List.foldlM_cons, gatherFile, hread]
    dsimp only
    rw [hload]
    rfl

/-! ## Writing the outputs -/

/-- The name of the declaration file of a module. -/
def fileName (M : Module) : String := M.name ++ ".types.ts"

theorem fileName_inj {M' : Module} (h : fileName M = fileName M') : M.name = M'.name := by
  have hlist := congrArg String.toList h
  rw [fileName, fileName, String.toList_append, String.toList_append] at hlist
  exact String.toList_inj.mp (List.append_cancel_right hlist)

theorem isName_fileName (h : Token.IsWord M.name) : IsName (fileName M) := by
  have hlong (other : String) (hother : other.length < ".types.ts".length) :
      fileName M ≠ other := by
    intro heq
    have hlength := congrArg String.length heq
    rw [fileName, String.length_append] at hlength
    omega
  refine ⟨hlong "" (by decide), hlong "." (by decide), hlong ".." (by decide), ?_⟩
  rw [fileName, String.toList_append, List.mem_append, not_or]
  exact ⟨h.notMem (by decide), by decide⟩

/-- Files that are written into a directory one after the other stand there, and nothing else has
changed. -/
theorem find?_writeAll {modules : List Module} {q : Place} (hdirectory : d.locate directory = .ok q)
    (hnames : ∀ M ∈ modules, IsName (fileName M)) (hnodup : (modules.map fileName).Nodup)
    (hwrite : writeAll d (outputs directory modules) = (.ok (), d')) :
    d.Keeps d' ∧
      (∀ M ∈ modules, d'.find? (q ++ [fileName M]) = some (.file (moduleText M))) ∧
      ∀ place, (∀ M ∈ modules, place ≠ q ++ [fileName M]) → d'.find? place = d.find? place := by
  induction modules generalizing d with
  | nil =>
    obtain rfl : d = d' := (Prod.mk.inj hwrite).2
    exact ⟨.refl d, by simp, fun _ _ => rfl⟩
  | cons M modules ih =>
    obtain ⟨hM, hmodules⟩ := List.forall_mem_cons.mp hnames
    rw [List.map_cons, List.nodup_cons] at hnodup
    rw [outputs, List.map_cons, writeAll] at hwrite
    cases hfirst : d.write (outputPath directory M) (moduleText M) with
    | error e =>
      rw [hfirst] at hwrite
      cases (Prod.mk.inj hwrite).1
    | ok d₁ =>
      rw [hfirst] at hwrite
      have hkeeps := Disk.keeps_of_write hfirst
      obtain rfl := Disk.write_join hdirectory hM hfirst
      obtain ⟨hkeeps', hfound, hother⟩ := ih (hkeeps.locate hdirectory) hmodules hnodup.2 hwrite
      have hroot : ∀ M : Module, q ++ [fileName M] ≠ [] := fun M =>
        List.append_ne_nil_of_right_ne_nil _ (List.cons_ne_nil _ _)
      refine ⟨hkeeps.trans hkeeps', ?_, fun place hplace => ?_⟩
      · refine List.forall_mem_cons.mpr ⟨?_, hfound⟩
        rw [hother, Disk.find?_put, if_neg (hroot M), if_pos rfl]
        intro M' hM' heq
        rw [List.append_cancel_left_eq, List.singleton_inj] at heq
        exact hnodup.1 (heq ▸ List.mem_map_of_mem hM')
      · obtain ⟨hne, hplace⟩ := List.forall_mem_cons.mp hplace
        rw [hother place hplace, Disk.find?_put, if_neg hne]
        by_cases hempty : place = []
        · rw [if_pos hempty, hempty, Disk.find?_nil]
        · rw [if_neg hempty]

/-! ## Builds -/

/-- What a build leaves behind that has written the declarations of a model into a directory: the
disk was `d` and is `d'`. -/
structure Writes (d d' : Disk) (directory : String) (m : Model) (written : List String) : Prop where
  paths : written = m.modules.map (outputPath directory)
  nodup : written.Nodup
  contents : ∀ M ∈ m.modules, d'.read (outputPath directory M) = .ok (moduleText M)
  closed : ∀ path ∈ written, ∀ text, d'.read path = .ok text →
    ∀ entry ∈ (SourceFile.ofText text).imports, ∃ path' ∈ written, path' ≠ path ∧
      path' = join directory (entry.1 ++ ".types.ts") ∧
      ∃ text', d'.read path' = .ok text' ∧
        ∀ name ∈ entry.2, (SourceFile.ofText text').Declares name
  kept : d.Keeps d'
  unchanged : ∃ q, d'.locate directory = .ok q ∧ d'.find? q = some .directory ∧
    (∀ M ∈ m.modules, d'.locate (outputPath directory M) = .ok (q ++ [fileName M])) ∧
    ∀ place, (∀ M ∈ m.modules, place ≠ q ++ [fileName M]) →
      d'.find? place = d.find? place ∨ d.find? place = none ∧ d'.find? place = some .directory

theorem nodup_outputPath (h : m.Reachable next) (hdirectory : directory ≠ "") :
    (m.modules.map (outputPath directory)).Nodup := by
  have hnodup : m.modules.Pairwise fun M M' => M.name ≠ M'.name :=
    List.pairwise_map.mp h.sound.names
  refine List.pairwise_map.mpr (hnodup.imp_of_mem fun hM hM' hne heq => hne ?_)
  exact fileName_inj (FilePath.join_inj hdirectory (isName_fileName (h.sound.words _ hM))
    (isName_fileName (h.sound.words _ hM')) heq)

theorem nodup_fileName (h : m.Reachable next) : (m.modules.map fileName).Nodup := by
  have hnodup : m.modules.Pairwise fun M M' => M.name ≠ M'.name :=
    List.pairwise_map.mp h.sound.names
  exact List.pairwise_map.mpr (hnodup.imp fun hne heq => hne (fileName_inj heq))

/-- Where the output directory was made and all outputs were written. -/
theorem writes_of_writeAll {d₁ d₂ : Disk} (hd : d.IsTree)
    (hcurrent : d.find? d.current = some .directory) (h : m.Reachable next)
    (hmake : d.makeDirectories directory = .ok d₁)
    (hwrite : writeAll d₁ (outputs directory m.modules) = (.ok (), d₂)) :
    Writes d d₂ directory m (m.modules.map (outputPath directory)) := by
  obtain ⟨q, hlocate, hq⟩ := hd.locate_of_makeDirectories hcurrent hmake
  have hnames : ∀ M ∈ m.modules, IsName (fileName M) := fun M hM =>
    isName_fileName (h.sound.words M hM)
  obtain ⟨hkeeps, hfound, hother⟩ := find?_writeAll hlocate hnames (nodup_fileName h) hwrite
  have hlocate₂ := hkeeps.locate hlocate
  have hq₂ := hkeeps.directory q hq
  have hne := (Disk.locate_eq_ok.mp hlocate).1
  have hread : ∀ M ∈ m.modules, d₂.read (outputPath directory M) = .ok (moduleText M) :=
    fun M hM => Disk.read_join hlocate₂ hq₂ (hnames M hM) (hfound M hM)
  have hnodup := nodup_outputPath h hne
  refine ⟨rfl, hnodup, hread, ?_, (Disk.keeps_of_makeDirectories hmake).trans hkeeps,
    q, hlocate₂, hq₂, fun M hM => ?_, fun place hplace => ?_⟩
  · intro path hpath text htext entry hentry
    obtain ⟨M, hM, rfl⟩ := List.mem_map.mp hpath
    rw [hread M hM] at htext
    rw [← Except.ok.inj htext, ofText_moduleText (h.worded hM)] at hentry
    obtain ⟨M', hM', hname, hother, hdeclared⟩ := h.exists_of_mem_imports hM hentry
    refine ⟨outputPath directory M', List.mem_map_of_mem hM', fun heq => ?_, ?_,
      moduleText M', hread M' hM', fun name hmem => ?_⟩
    · exact hother (List.inj_on_of_nodup_map hnodup hM' hM heq)
    · rw [outputPath, hname]
    · rw [ofText_moduleText (h.worded hM')]
      exact (declares_iff rfl rfl).mpr (hdeclared name hmem)
  · have hsome : (d₂.find? (q ++ [fileName M])).isSome := by
      rw [hfound M hM]
      rfl
    exact Disk.locate_join hlocate₂ hq₂ (hnames M hM) hsome
  · rw [hother place hplace]
    exact Disk.find?_of_makeDirectories hmake place

/-- A build with an input that cannot be read or does not load leaves the disk and answers with the
first such input: with the error of reading it, or with its name, what is wrong with it and the
warnings of the inputs before it. Otherwise, if the output directory can be made and all files can
be written, the build answers with the model of its inputs and with the files that it has written,
one for each module in the order of loading: they hold the declarations of their modules and import
from one another only, and no other file has changed. -/
theorem run_all_or_nothing (hd : d.IsTree) (hcurrent : d.find? d.current = some .directory)
    (options : BuildOptions) :
    ((∃ m next warnings, Loads d options.maxPrintDepth options.inputs m next warnings) ∨
      ∃ before file after answer, options.inputs = before ++ file :: after ∧
        Fails d options.maxPrintDepth before file answer) ∧
    (∀ before file after answer, options.inputs = before ++ file :: after →
      Fails d options.maxPrintDepth before file answer → run d options = (answer, d)) ∧
    ∀ m next warnings d₁ d₂, Loads d options.maxPrintDepth options.inputs m next warnings →
      d.makeDirectories options.outputDir = .ok d₁ →
      writeAll d₁ (outputs options.outputDir m.modules) = (.ok (), d₂) →
      ∃ written, run d options = (.ok (.built m written warnings), d₂) ∧
        Writes d d₂ options.outputDir m written := by
  refine ⟨loads_or_fails d _ _, fun before file after answer hinputs hfails =>
    hfails.run_eq hinputs, fun m next warnings d₁ d₂ hloads hmake hwrite => ?_⟩
  refine ⟨_, ?_, writes_of_writeAll hd hcurrent hloads.reachable hmake hwrite⟩
  rw [run, gather, hloads.gather]
  dsimp only
  rw [hmake]
  dsimp only
  rw [hwrite]
  simp [outputs, Function.comp_def]

/-- A disk with two schemas in the working directory. -/
def Sample.disk : Disk := ⟨["w"], [(["w"], .directory),
  (["w", "m.asdl"], .file "module m \x7b expr = Lit(int v) | Neg(expr e, expr* others) \x7d"),
  (["w", "n.asdl"], .file "module n \x7b e = (expr x) f = E(e y) attributes (expr* r) \x7d")]⟩

theorem Sample.isTree_disk : disk.IsTree := by
  have hcurrent : FilePath.IsPlace ["w"] := by
    rw [FilePath.IsPlace, List.forall_mem_singleton]
    exact ⟨by decide, by decide, by decide, by decide⟩
  let root : Disk := ⟨["w"], [(["w"], .directory)]⟩
  have hfree : Disk.find? ⟨["w"], []⟩ ([] ++ ["w"]) ≠ some .directory := by decide
  have hroot : root.IsTree := (Disk.isTree_empty hcurrent).put rfl hfree .directory
  have hfreeM : root.find? (["w"] ++ ["m.asdl"]) ≠ some .directory := by decide
  have hfreeN (entry : FileEntry) :
      (root.put (["w"] ++ ["m.asdl"]) entry).find? (["w"] ++ ["n.asdl"]) ≠ some .directory := by
    intro h
    cases h
  exact (hroot.put rfl hfreeM _).put rfl (hfreeN _) _

theorem Sample.exists_writeAll {M N : Module} (hM : M.name = "m") (hN : N.name = "n") :
    ∃ d₁ d₂, disk.makeDirectories "out" = .ok d₁ ∧
      writeAll d₁ (outputs "out" [M, N]) = (.ok (), d₂) := by
  have hpath : outputPath "out" M = "out/m.types.ts" ∧ outputPath "out" N = "out/n.types.ts" := by
    rw [outputPath, outputPath, hM, hN]
    exact ⟨rfl, rfl⟩
  let d₁ := disk.put ["w", "out"] .directory
  let dM := d₁.put ["w", "out", "m.types.ts"] (.file (moduleText M))
  let dN := dM.put ["w", "out", "n.types.ts"] (.file (moduleText N))
  have hwriteM : d₁.write "out/m.types.ts" (moduleText M) = .ok dM := rfl
  have hwriteN : dM.write "out/n.types.ts" (moduleText N) = .ok dN := rfl
  refine ⟨d₁, dN, rfl, ?_⟩
  simp only [outputs, List.map_cons, List.map_nil, hpath, writeAll, hwriteM, hwriteN]

/-- The schemas of the disk load one on top of the other. -/
theorem Sample.exists_loads : ∃ m M N, Loads disk none ["m.asdl", "n.asdl"] m 2 [] ∧
    m.modules = [M, N] ∧ M.name = "m" ∧ N.name = "n" := by
  have hm : Loads disk none ["m.asdl"] Model.Sample.exprModel 1 [] :=
    .concat .nil rfl Model.Sample.load_eq_exprModel
  have hload : ∃ loaded M N, Model.Sample.exprModel.loadTree 1 none Model.Sample.usingTree =
      .ok loaded ∧ loaded.warnings = [] ∧ loaded.modules.length = 1 ∧
      loaded.model.modules = [M, N] ∧ M.name = "m" ∧ N.name = "n" :=
    ⟨_, _, _, rfl, rfl, rfl, rfl, rfl, rfl⟩
  obtain ⟨loaded, M, N, htree, hwarnings, hlength, hmodules, hM, hN⟩ := hload
  have hn : Loads disk none (["m.asdl"] ++ ["n.asdl"]) loaded.model _ _ := .concat hm rfl (by
    rw [Model.load, Model.Sample.parse_eq_usingTree, Outcome.ok_bind, htree])
  rw [hwarnings, hlength] at hn
  exact ⟨_, M, N, hn, hmodules, hM, hN⟩

/-- Both schemas are written; behind the first, a file that is missing stops the build. -/
theorem run_all_or_nothing_sample :
    (∃ m written d', run Sample.disk ⟨["m.asdl", "n.asdl"], "out", none⟩ =
        (.ok (.built m written []), d') ∧
      written = ["out/m.types.ts", "out/n.types.ts"] ∧ Writes Sample.disk d' "out" m written) ∧
    run Sample.disk ⟨["m.asdl", "x.asdl", "n.asdl"], "out", none⟩ =
      (.error ⟨.missing, "open", some "x.asdl"⟩, Sample.disk) := by
  constructor
  · obtain ⟨m, M, N, hloads, hmodules, hM, hN⟩ := Sample.exists_loads
    obtain ⟨d₁, d₂, hmake, hwrite⟩ := Sample.exists_writeAll hM hN
    rw [← hmodules] at hwrite
    obtain ⟨-, -, hwritten⟩ := run_all_or_nothing Sample.isTree_disk rfl
      ⟨["m.asdl", "n.asdl"], "out", none⟩
    obtain ⟨written, hrun, hwrites⟩ := hwritten m 2 [] d₁ d₂ hloads hmake hwrite
    refine ⟨m, written, d₂, hrun, ?_, hwrites⟩
    rw [hwrites.paths, hmodules, List.map_cons, List.map_singleton, outputPath, outputPath, hM, hN]
    rfl
  · obtain ⟨-, hnothing, -⟩ := run_all_or_nothing Sample.isTree_disk rfl
      ⟨["m.asdl", "x.asdl", "n.asdl"], "out", none⟩
    exact hnothing ["m.asdl"] "x.asdl" ["n.asdl"] _ rfl
      (.unreadable (.concat .nil rfl Model.Sample.load_eq_exprModel) rfl)

end Build

end Schemata
