import Schemata.Proofs.Build
import Schemata.Proofs.Watch.Watching

/-!
# What a compilation does

A compilation begins with a line of the log that says so (`World.compilations`). It brings the file
watches in line with the sources of the input, takes the waiting time from the plan, if there is
one, and leaves the disk as the build leaves it (`Watcher.compile_eq`). In the end it reports its
outcome, which is success just if there was a plan and the build of it wrote its files
(`WatchOptions.Builds`). If the call with the outcome of a build fails, the failure is reported in
turn (`Watcher.Concludes`).
-/

namespace Schemata.Watch

variable {read : Yaml.Reader}

/-- A line of the log says that a compilation begins: at a start, or after changes. -/
def LogEntry.begins (e : LogEntry) : Bool :=
  e.channel = .log ∧
    (e.text = "📝 Schema changed, recompiling..." ∨ "👀 Watching ".toList <+: e.text.toList)

/-- How many compilations began in a world. -/
def World.compilations (world : World) : Nat := world.log.countP LogEntry.begins

/-- What a watcher makes of its input on a disk. -/
def WatchOptions.plan (read : Yaml.Reader) (o : WatchOptions) (d : Disk) : Except Failure BuildPlan :=
  BuildPlan.make read d o.input o.outputDir (some "./generated")

/-- There is a plan on a disk, and its build succeeds. -/
def WatchOptions.Builds (read : Yaml.Reader) (o : WatchOptions) (d : Disk) : Prop :=
  ∃ plan, o.plan read d = .ok plan ∧
    ∃ model written warnings, (Build.run d plan.build).1 = .ok (.built model written warnings)

/-- There is a plan on a disk, and its build ends without a failed file operation. -/
def WatchOptions.Finishes (read : Yaml.Reader) (o : WatchOptions) (d : Disk) : Prop :=
  ∃ plan, o.plan read d = .ok plan ∧ ∃ result, (Build.run d plan.build).1 = .ok result

/-- The disk after a build of the input. -/
def WatchOptions.rebuilt (read : Yaml.Reader) (o : WatchOptions) (d : Disk) : Disk :=
  match o.plan read d with
  | .error _ => d
  | .ok plan => (Build.run d plan.build).2

/-- The waiting time in force after a build of the input, if another one was before. -/
def WatchOptions.delay (read : Yaml.Reader) (o : WatchOptions) (d : Disk) (before : Rat) : Rat :=
  match o.plan read d with
  | .error _ => before
  | .ok plan => o.debounce.getD (delayOf plan.debounce)

/-! ## Telling -/

/-- A world in which more was logged and reported, and more failures passed. -/
def World.tell (world : World) (lines : List LogEntry) (outcomes : List Outcome)
    (failures : List Failure) : World :=
  { world with
    log := world.log ++ lines
    outcomes := world.outcomes ++ outcomes
    uncaught := world.uncaught ++ failures }

namespace World

variable {world : World} {lines lines' : List LogEntry} {outcomes outcomes' : List Outcome}
  {failures failures' : List Failure}

@[simp] theorem tell_disk : (world.tell lines outcomes failures).disk = world.disk := rfl

@[simp] theorem tell_outcomes :
    (world.tell lines outcomes failures).outcomes = world.outcomes ++ outcomes := rfl

@[simp] theorem tell_nil (world : World) : world.tell [] [] [] = world := by simp [tell]

@[simp] theorem tell_tell :
    (world.tell lines outcomes failures).tell lines' outcomes' failures' =
      world.tell (lines ++ lines') (outcomes ++ outcomes') (failures ++ failures') := by
  simp [tell]

theorem say_eq_tell (world : World) (channel : Channel) (text : String) :
    world.say channel text = world.tell [⟨channel, text⟩] [] [] := by simp [say, tell]

theorem compilations_tell : (world.tell lines outcomes failures).compilations =
    world.compilations + lines.countP LogEntry.begins := List.countP_append

end World

/-- No line says that a compilation begins. -/
def Silent (lines : List LogEntry) : Prop := ∀ line ∈ lines, line.begins = false

theorem Silent.append {lines lines' : List LogEntry} (h : Silent lines) (h' : Silent lines') :
    Silent (lines ++ lines') := List.forall_mem_append.mpr ⟨h, h'⟩

theorem Silent.countP_eq_zero {lines : List LogEntry} (h : Silent lines) :
    lines.countP LogEntry.begins = 0 :=
  List.countP_eq_zero.mpr fun line hline => by simp [h line hline]

theorem begins_eq_false_of_channel {e : LogEntry} (h : e.channel ≠ .log) : e.begins = false := by
  simp [LogEntry.begins, h]

/-- A line that does not begin as the lines of a compilation that begins says nothing of one. -/
theorem begins_eq_false_of_head? {e : LogEntry} (hchanged : e.text.toList.head? ≠ some '📝')
    (hwatching : e.text.toList.head? ≠ some '👀') : e.begins = false := by
  have hne : e.text ≠ "📝 Schema changed, recompiling..." := fun h => hchanged (by rw [h]; simp)
  have hnot : ¬"👀 Watching ".toList <+: e.text.toList := by
    rintro ⟨rest, h⟩
    exact hwatching (by rw [← h]; simp)
  simp only [LogEntry.begins, hne, hnot, false_or, and_false, decide_false]

/-- Lines that are told one after the other. -/
theorem foldl_say {α : Type} (channel : Channel) (text : Disk → α → String) (as : List α)
    (world : World) :
    as.foldl (fun world a => world.say channel (text world.disk a)) world =
      world.tell (as.map fun a => ⟨channel, text world.disk a⟩) [] [] := by
  induction as generalizing world with
  | nil => simp
  | cons a as ih =>
    rw [List.foldl_cons, ih, World.say_eq_tell, World.tell_disk, World.tell_tell]
    rfl

namespace Watcher

variable {w : Watcher} {world : World} {lines : List LogEntry}

/-! ## Reports -/

/-- The outcomes that a watcher reports of one. -/
def told (w : Watcher) (outcome : Outcome) : List Outcome :=
  if w.options.onCompile.isSome then [outcome] else []

/-- The failure of the call with an outcome after others. -/
def answer? (w : Watcher) (before : List Outcome) (outcome : Outcome) : Option Failure :=
  w.options.onCompile.bind fun call => call (before ++ [outcome])

theorem report_eq_tell (w : Watcher) (outcome : Outcome) (world : World) :
    w.report outcome world =
      (w.answer? world.outcomes outcome, world.tell [] (w.told outcome) []) := by
  unfold report answer? told
  cases w.options.onCompile with
  | none => simp
  | some call => simp [World.report, World.tell]

/-- How a compilation ends: with lines that do not say that one begins, and with a report of how it
went. If the call with it fails and this is caught, the failure is reported as well. -/
def Concludes (w : Watcher) (ok caught : Prop) (world world' : World) : Prop :=
  ∃ lines outcome again failures,
    world' = world.tell lines (w.told outcome ++ again) failures ∧ Silent lines ∧
    (outcome = .success ↔ ok) ∧
    (caught → again = (w.answer? world.outcomes outcome).toList.map .failure) ∧
    (¬caught → again = [])

theorem Concludes.congr {w' : Watcher} {ok ok' caught caught' : Prop} {world world' : World}
    (h : w.Concludes ok caught world world') (hoptions : w'.options = w.options) (hok : ok' ↔ ok)
    (hcaught : caught' ↔ caught) : w'.Concludes ok' caught' world world' := by
  unfold Concludes told answer? at h ⊢
  simpa only [hoptions, hok, hcaught] using h

/-- Other lines may be logged before. -/
theorem Concludes.after {ok caught : Prop} {world world' : World} {lines : List LogEntry}
    (hlines : Silent lines) (h : w.Concludes ok caught (world.tell lines [] []) world') :
    w.Concludes ok caught world world' := by
  obtain ⟨lines', outcome, again, failures, rfl, hlines', hok, hcaught, hnot⟩ := h
  refine ⟨lines ++ lines', outcome, again, failures, ?_, hlines.append hlines', hok, ?_, hnot⟩
  · rw [World.tell_tell, List.nil_append, List.nil_append]
  · simpa using hcaught

/-- Log and report a failure: one line, one outcome, and the failure of the call, if it fails. -/
theorem fail_eq_tell (w : Watcher) (e : Failure) (world : World) :
    ∃ lines, Silent lines ∧ w.fail e world = world.tell lines (w.told (.failure e))
      (w.answer? world.outcomes (.failure e)).toList := by
  refine ⟨[⟨.error, "❌ Compilation failed: " ++ w.failureText e⟩], ?_, ?_⟩
  · simp [Silent, begins_eq_false_of_channel]
  · unfold fail
    simp only [report_eq_tell, sayFailed, World.say_eq_tell, World.tell_outcomes, List.append_nil,
      World.tell_tell, List.nil_append]
    cases w.answer? world.outcomes (.failure e) with
    | none => rfl
    | some e' => simp [World.escape, World.tell]

theorem concludes_fail (w : Watcher) (e : Failure) (world : World) :
    w.Concludes False False world (w.fail e world) := by
  obtain ⟨lines, hlines, hfail⟩ := fail_eq_tell w e world
  exact ⟨lines, .failure e, [], _, by rw [hfail, List.append_nil], hlines, by simp, by simp, by simp⟩

theorem concludes_reportResult (w : Watcher) (outcome : Outcome) (world : World) :
    w.Concludes (outcome = .success) True world (w.reportResult outcome world) := by
  unfold reportResult
  rw [report_eq_tell]
  cases hanswer : w.answer? world.outcomes outcome with
  | none => exact ⟨[], outcome, [], [], by simp, by simp [Silent], .rfl, by simp [hanswer], by simp⟩
  | some e =>
    obtain ⟨lines, hlines, hfail⟩ := fail_eq_tell w e (world.tell [] (w.told outcome) [])
    have htold : w.told (.failure e) = [.failure e] := by
      unfold answer? at hanswer
      cases hcall : w.options.onCompile with
      | none => simp [hcall] at hanswer
      | some call => simp [told, hcall]
    rw [World.tell_tell, htold, List.nil_append, List.nil_append] at hfail
    exact ⟨lines, outcome, [.failure e], _, hfail, hlines, .rfl, by simp [hanswer], by simp⟩

theorem sayWarnings_eq_tell (warnings : List FileDiagnostic) (world : World) :
    ∃ lines, sayWarnings warnings world = world.tell lines [] [] ∧ Silent lines := by
  have htell := foldl_say .warn (fun d (w : FileDiagnostic) =>
    "⚠️  " ++ w.diagnostic.format (some (d.relative w.file))) warnings world
  refine ⟨_, htell, fun line hline => ?_⟩
  obtain ⟨warning, -, rfl⟩ := List.mem_map.mp hline
  exact begins_eq_false_of_channel (by simp)

theorem sayWritten_eq_tell (written : List String) (world : World) :
    ∃ lines, written.foldl (fun world file =>
        world.say .log ("   → " ++ world.disk.relative file)) world = world.tell lines [] [] ∧
      Silent lines := by
  refine ⟨_, foldl_say .log (fun d file => "   → " ++ d.relative file) written world,
    fun line hline => ?_⟩
  obtain ⟨file, -, rfl⟩ := List.mem_map.mp hline
  exact begins_eq_false_of_head? (by simp) (by simp)

theorem concludes_conclude (w : Watcher) (result : Except FileError BuildResult) (world : World) :
    w.Concludes (∃ model written warnings, result = .ok (.built model written warnings))
      (∃ finished, result = .ok finished) world (w.conclude result world) := by
  match result with
  | .error e =>
    rw [conclude]
    simpa using concludes_fail w (.file e) world
  | .ok (.failed file e warnings) =>
    obtain ⟨lines, hwarnings, hlines⟩ := sayWarnings_eq_tell warnings world
    have hfailed : w.Concludes False True world (w.conclude (.ok (.failed file e warnings)) world) := by
      rw [conclude, hwarnings, sayFailed, World.say_eq_tell, World.tell_tell]
      refine Concludes.after (hlines.append ?_)
        ((concludes_reportResult w (.failure (.schema e.toSchemaError)) _).congr rfl (by simp) .rfl)
      simp [Silent, begins_eq_false_of_channel]
    simpa using hfailed
  | .ok (.built model written warnings) =>
    obtain ⟨lines, hwarnings, hlines⟩ := sayWarnings_eq_tell warnings world
    obtain ⟨lines', hwritten, hlines'⟩ := sayWritten_eq_tell written
      ((world.tell lines [] []).say .log "✅ Schema compiled successfully")
    have hdone : Silent [⟨.log, "✅ Schema compiled successfully"⟩] :=
      List.forall_mem_singleton.mpr (begins_eq_false_of_head? (by simp) (by simp))
    have hsuccess : True ↔ Outcome.success = .success := by simp
    have hbuilt : w.Concludes True True world
        (w.conclude (.ok (.built model written warnings)) world) := by
      rw [conclude, hwarnings, hwritten, World.say_eq_tell, World.tell_tell, World.tell_tell]
      exact Concludes.after (hlines.append (hdone.append hlines'))
        ((concludes_reportResult w .success _).congr rfl hsuccess .rfl)
    simpa using hbuilt

/-! ## Compiling -/

theorem wanted_resolve (d : Disk) (path : String) : wanted d [d.resolve path] = wanted d [path] := by
  simp [wanted, Disk.resolve, FilePath.resolve_resolve]

theorem sync_congr {files files' : List String}
    (h : wanted world.disk files = wanted world.disk files') :
    w.sync files world = w.sync files' world := by
  rw [sync_eq, sync_eq, h]

/-- A compilation without a plan. -/
theorem compile_of_error {e : Failure} (h : w.options.plan read world.disk = .error e) :
    w.compile read world = ((w.sync [w.options.input] world).1,
      (w.sync [w.options.input] world).1.fail e (w.sync [w.options.input] world).2) := by
  unfold WatchOptions.plan at h
  unfold compile
  rw [h]

/-- A compilation with a plan. -/
theorem compile_of_ok {plan : BuildPlan} (h : w.options.plan read world.disk = .ok plan) :
    w.compile read world =
      let synced := w.sync plan.watchFiles world
      let w := { synced.1 with debounce := w.options.debounce.getD (delayOf plan.debounce) }
      let built := Build.run synced.2.disk plan.build
      (w, w.conclude built.1 { synced.2 with disk := built.2 }) := by
  unfold WatchOptions.plan at h
  unfold compile
  rw [h]
  rfl

/-- What a compilation does: first it brings the file watches in line with the sources of the input,
and in the end it reports how it went. -/
theorem compile_eq (read : Yaml.Reader) (w : Watcher) (world : World) :
    ∃ synced world', w.sync (BuildPlan.sources read world.disk w.options.input) world = synced ∧
      w.Concludes (w.options.Builds read world.disk) (w.options.Finishes read world.disk)
        { synced.2 with disk := w.options.rebuilt read world.disk } world' ∧
      w.compile read world =
        ({ synced.1 with debounce := w.options.delay read world.disk w.debounce }, world') := by
  refine ⟨_, (w.compile read world).2, rfl, ?_⟩
  cases hplan : w.options.plan read world.disk with
  | error e =>
    -- without a plan the input is its only source
    have hsync : w.sync [w.options.input] world =
        w.sync (BuildPlan.sources read world.disk w.options.input) world := by
      rw [BuildPlan.sources_of_make_error hplan]
      exact sync_congr (wanted_resolve _ _).symm
    have hfst := sync_fst w (BuildPlan.sources read world.disk w.options.input) world
    have hsnd := sync_snd w (BuildPlan.sources read world.disk w.options.input) world
    rw [compile_of_error hplan, hsync, WatchOptions.rebuilt, WatchOptions.delay, hplan]
    generalize w.sync (BuildPlan.sources read world.disk w.options.input) world = synced at hfst hsnd ⊢
    have hbuilds : ¬w.options.Builds read world.disk := by simp [WatchOptions.Builds, hplan]
    have hfinishes : ¬w.options.Finishes read world.disk := by simp [WatchOptions.Finishes, hplan]
    have hworld : { synced.2 with disk := world.disk } = synced.2 := by rw [hsnd]
    dsimp only
    rw [hworld]
    refine ⟨(concludes_fail synced.1 e synced.2).congr (by rw [hfst]) (iff_false_intro hbuilds)
      (iff_false_intro hfinishes), ?_⟩
    rw [hfst]
  | ok plan =>
    have hfst := sync_fst w plan.watchFiles world
    have hsnd := sync_snd w plan.watchFiles world
    rw [compile_of_ok hplan, ← BuildPlan.watchFiles_of_make hplan, WatchOptions.rebuilt,
      WatchOptions.delay, hplan]
    generalize w.sync plan.watchFiles world = synced at hfst hsnd ⊢
    have hdisk : synced.2.disk = world.disk := by rw [hsnd]
    have hbuilds : w.options.Builds read world.disk ↔ ∃ model written warnings,
        (Build.run world.disk plan.build).1 = .ok (.built model written warnings) := by
      simp [WatchOptions.Builds, hplan]
    have hfinishes : w.options.Finishes read world.disk ↔
        ∃ finished, (Build.run world.disk plan.build).1 = .ok finished := by
      simp [WatchOptions.Finishes, hplan]
    dsimp only
    rw [hdisk]
    exact ⟨(concludes_conclude _ _ _).congr (by rw [hfst]) hbuilds hfinishes, rfl⟩

/-! ## What a compilation leaves -/

theorem compile_fst (w : Watcher) (world : World) :
    (w.compile read world).1 = { w with
      watching := (w.compile read world).1.watching
      debounce := w.options.delay read world.disk w.debounce } := by
  obtain ⟨synced, world', hsynced, -, hcompile⟩ := compile_eq read w world
  rw [hcompile, ← hsynced, sync_fst]

theorem compile_options (w : Watcher) (world : World) :
    (w.compile read world).1.options = w.options := by
  rw [compile_fst]

theorem compile_snd (w : Watcher) (world : World) :
    (w.compile read world).2.disk = w.options.rebuilt read world.disk ∧
      (w.compile read world).2.now = world.now ∧ (w.compile read world).2.timers = world.timers := by
  obtain ⟨synced, world', hsynced, ⟨lines, outcome, again, failures, rfl, -⟩, hcompile⟩ :=
    compile_eq read w world
  rw [hcompile, ← hsynced, sync_snd]
  exact ⟨rfl, rfl, rfl⟩

theorem Holds.compile (h : w.Holds world) : (w.compile read world).1.Holds (w.compile read world).2 := by
  obtain ⟨synced, world', hsynced, ⟨lines, outcome, again, failures, rfl, -⟩, hcompile⟩ :=
    compile_eq read w world
  rw [hcompile]
  exact (hsynced ▸ h.sync _).congr rfl rfl rfl rfl rfl rfl

/-- After a compilation the sources of the input that exist are watched. -/
theorem mem_watchedFiles_compile {path : String} :
    path ∈ (w.compile read world).1.watchedFiles ↔
      path ∈ BuildPlan.sources read world.disk w.options.input ∧ world.disk.pathExists path := by
  obtain ⟨synced, world', hsynced, -, hcompile⟩ := compile_eq read w world
  have hwatched : (w.compile read world).1.watchedFiles = synced.1.watchedFiles := by
    rw [hcompile]
    rfl
  rw [hwatched, ← hsynced, mem_watchedFiles_sync]
  constructor
  · rintro ⟨file, hfile, rfl, hexists⟩
    obtain ⟨q, hq, rfl⟩ := BuildPlan.exists_place_of_mem_sources hfile
    rw [Disk.resolve_absolute _ hq] at hexists ⊢
    exact ⟨hfile, hexists⟩
  · rintro ⟨hmem, hexists⟩
    obtain ⟨q, hq, rfl⟩ := BuildPlan.exists_place_of_mem_sources hmem
    exact ⟨_, hmem, Disk.resolve_absolute _ hq, hexists⟩

/-- A compilation does not say that another one begins. It reports once how it went, and after a
build that has finished it reports the failure of this call, if it fails. -/
theorem outcomes_compile (read : Yaml.Reader) (w : Watcher) (world : World) :
    ∃ outcome again, (w.compile read world).2.compilations = world.compilations ∧
      (w.compile read world).2.outcomes = world.outcomes ++ (w.told outcome ++ again) ∧
      (outcome = .success ↔ w.options.Builds read world.disk) ∧
      (w.options.Finishes read world.disk →
        again = (w.answer? world.outcomes outcome).toList.map .failure) ∧
      (¬w.options.Finishes read world.disk → again = []) := by
  obtain ⟨synced, world', hsynced, ⟨lines, outcome, again, failures, rfl, hlines, hok, hcaught, hnot⟩,
    hcompile⟩ := compile_eq read w world
  have hlog : synced.2.log = world.log := by rw [← hsynced, sync_snd]
  have houtcomes : synced.2.outcomes = world.outcomes := by rw [← hsynced, sync_snd]
  refine ⟨outcome, again, ?_, ?_, hok, by rwa [← houtcomes], hnot⟩
  · rw [hcompile, World.compilations_tell, hlines.countP_eq_zero, World.compilations, hlog]
    rfl
  · rw [hcompile, World.tell_outcomes, houtcomes]

end Watcher

/-! ## The disk -/

theorem WatchOptions.keeps_rebuilt (read : Yaml.Reader) (o : WatchOptions) (d : Disk) :
    d.Keeps (o.rebuilt read d) := by
  unfold rebuilt
  split
  · exact .refl d
  · exact Build.keeps_run d _

theorem WatchOptions.isTree_rebuilt {o : WatchOptions} {d : Disk} (h : d.IsTree) :
    (o.rebuilt read d).IsTree := by
  unfold rebuilt
  split
  · exact h
  · next plan hplan => exact Build.isTree_run h (BuildPlan.isAbsolute_outputDir hplan)

/-- A build makes no source of its input exist and takes none away. -/
theorem WatchOptions.pathExists_rebuilt {o : WatchOptions} {d : Disk} {path : String}
    (h : d.IsTree) (hpath : path ∈ BuildPlan.sources read d o.input) :
    (o.rebuilt read d).pathExists path ↔ d.pathExists path := by
  unfold rebuilt
  split
  · exact .rfl
  · next plan hplan => exact BuildPlan.pathExists_run h hplan hpath

end Schemata.Watch
