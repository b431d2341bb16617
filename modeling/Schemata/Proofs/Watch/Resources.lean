import Schemata.Proofs.Watch.Runs
import Schemata.Yaml.Document

/-!
# The resources of a watcher

Whatever happens to a watcher, the file watches that are open are those that it remembers, one for
each path, and at most one timer is pending, the one that it remembers. When it has compiled, it
watches those sources of its input that exist, and when it was stopped, it holds nothing and does
nothing until it is started or asked for a compilation (`Simulation.resources_run`).
-/

namespace Schemata.Watch

open BuildPlan (sources)

variable {read : Yaml.Reader} {w : Watcher} {world : World} {op : Operation}
  {s : Watcher × World} {path : String}

namespace Watcher

/-- What a watcher holds, as it is seen in the world. -/
theorem Holds.resources (h : w.Holds world) :
    world.fileWatches = w.watching.map (fun e => ⟨e.2, w.id, e.1⟩) ∧
      (world.fileWatches.map FileWatch.path).Nodup ∧ (world.fileWatches.map FileWatch.id).Nodup ∧
      world.timers.map Timer.id = w.timer.toList := by
  refine ⟨h.fileWatches, ?_, ?_, ?_⟩
  · rw [h.fileWatches, List.map_map]
    exact h.paths
  · rw [h.fileWatches, List.map_map]
    exact h.numbers
  · obtain ⟨due, htimers⟩ := h.timers
    rw [htimers, List.map_map]
    exact List.map_id _

/-! ## After a compilation -/

/-- When a step has compiled, exactly the sources of the input that exist are watched. -/
theorem Step.mem_watchedFiles (h : w.Step read world op s) (hholds : w.Holds world)
    (hd : world.disk.IsTree) (hcompiled : s.2.compilations ≠ world.compilations) :
    path ∈ s.1.watchedFiles ↔
      path ∈ sources read world.disk w.options.input ∧ s.2.disk.pathExists path := by
  obtain ⟨-, timer, world', rfl, hdisk, -⟩ | ⟨-, -, hsame, -⟩ := h.compiles_or hholds
  · rw [mem_watchedFiles_compile, (compile_snd _ _).1, hdisk]
    refine and_congr_right fun hpath => ?_
    exact (WatchOptions.pathExists_rebuilt hd hpath).symm
  · exact absurd hsame hcompiled

/-- A step keeps the working directory. -/
theorem Step.resolve (h : w.Step read world op s) (hholds : w.Holds world)
    (hcompiled : s.2.compilations ≠ world.compilations) (path : String) :
    s.2.disk.resolve path = world.disk.resolve path := by
  obtain ⟨-, timer, world', rfl, hdisk, -⟩ | ⟨-, -, hsame, -⟩ := h.compiles_or hholds
  · have hkeeps := w.options.keeps_rebuilt read world.disk
    rw [(compile_snd _ _).1, hdisk, Disk.resolve, Disk.currentPath, hkeeps.current]
    rfl
  · exact absurd hsame hcompiled

/-- When a step has compiled, an input that exists is under watch, and nothing else if there was no
plan. -/
theorem Step.input_mem_watchedFiles (h : w.Step read world op s) (hholds : w.Holds world)
    (hd : world.disk.IsTree) (hcompiled : s.2.compilations ≠ world.compilations) :
    (∀ e, w.options.plan read world.disk = .error e → ∀ path, path ∈ s.1.watchedFiles ↔
      path = s.2.disk.resolve w.options.input ∧ s.2.disk.pathExists path) ∧
    (s.2.disk.pathExists w.options.input →
      s.2.disk.resolve w.options.input ∈ s.1.watchedFiles) := by
  have hresolve := h.resolve hholds hcompiled w.options.input
  refine ⟨fun e he path => ?_, fun hexists => ?_⟩
  · have hsources : sources read world.disk w.options.input = _ := BuildPlan.sources_of_make_error he
    rw [h.mem_watchedFiles hholds hd hcompiled, hsources, List.mem_singleton, hresolve]
  · refine (h.mem_watchedFiles hholds hd hcompiled).mpr ⟨?_, ?_⟩
    · rw [hresolve]
      exact List.mem_cons_self
    · exact (h.isTree hholds hd).pathExists_resolve hexists

/-! ## After stopping -/

/-- A watcher that watches nothing and waits for nothing. -/
structure Idle (w : Watcher) (world : World) : Prop where
  holds : w.Holds world
  watching : w.watching = []
  timer : w.timer = none

theorem Idle.fileWatches (h : w.Idle world) : world.fileWatches = [] := by
  rw [h.holds.fileWatches, h.watching, List.map_nil]

theorem Idle.timers (h : w.Idle world) : world.timers = [] := by
  obtain ⟨due, htimers⟩ := h.holds.timers
  rw [htimers, h.timer]
  rfl

theorem Holds.idle_stop (h : w.Holds world) : (w.stop world).1.Idle (w.stop world).2 := by
  refine ⟨h.stop, ?_, ?_⟩ <;> rw [stop_eq h]

/-- Only a start or a request wakes a watcher that is idle. -/
theorem Step.idle (h : w.Step read world op s) (hidle : w.Idle world) (hop : op ≠ .start)
    (hop' : op ≠ .schedule) :
    s.1.Idle s.2 ∧ s.2.log = world.log ∧ s.2.outcomes = world.outcomes := by
  cases h with
  | refuse | start => exact absurd rfl hop
  | stop =>
    refine ⟨hidle.holds.idle_stop, ?_⟩
    rw [stop_eq hidle.holds]
    simp [farewell, hidle.watching]
  | request hrequests =>
    rcases hrequests with heq | ⟨path, heq, f, hf, -⟩
    · exact absurd heq hop'
    · rw [hidle.fileWatches] at hf
      cases hf
  | ignore => exact ⟨hidle, rfl, rfl⟩
  | wait | write | remove =>
    exact ⟨⟨hidle.holds.congr rfl rfl rfl rfl rfl rfl, hidle.watching, hidle.timer⟩, rfl, rfl⟩
  | fire ht =>
    rw [hidle.timers] at ht
    cases ht

theorem Idle.run (h : w.Idle world) {ops : List Operation}
    (hops : ∀ op ∈ ops, op ≠ .start ∧ op ≠ .schedule) :
    ∃ w' world', (Simulation.alone w world).run read ops = .alone w' world' ∧ w'.Idle world' ∧
      world'.log = world.log ∧ world'.outcomes = world.outcomes := by
  induction ops generalizing w world with
  | nil => exact ⟨w, world, rfl, h, rfl, rfl⟩
  | cons op ops ih =>
    obtain ⟨⟨hstart, hschedule⟩, hops⟩ := List.forall_mem_cons.mp hops
    obtain ⟨s, hstep, hperform⟩ := Simulation.perform_alone read h.holds op
    obtain ⟨hidle, hlog, houtcomes⟩ := hstep.idle h hstart hschedule
    obtain ⟨w', world', hrun, hidle', hlog', houtcomes'⟩ := ih hidle hops
    refine ⟨w', world', ?_, hidle', hlog'.trans hlog, houtcomes'.trans houtcomes⟩
    rw [Simulation.run, List.foldl_cons, hperform]
    exact hrun

end Watcher

namespace Simulation

theorem watchedFiles_alone (w : Watcher) (world : World) :
    (alone w world).watchedFiles = w.watchedFiles := by
  rw [watchedFiles, show (alone w world).current = w.id from rfl, find?_alone]
  rfl

/-- After every run the open file watches are the entries of the watcher, one for each path, and the
pending timer is the one that it remembers. Where an operation makes it compile, it then watches the
sources of the input that exist, which is only the input if there is no plan; so an input that
exists stays under watch. Once stopped it has no watch and no timer and says nothing more, until it
is started or asked for a compilation. -/
theorem resources_run {d : Disk} (hd : d.IsTree) (read : Yaml.Reader) (options : WatchOptions)
    (ops : List Operation) :
    let s := (ofOptions d options).run read ops
    (∃ w, s.watchers = [w] ∧
      s.world.fileWatches = w.watching.map (fun e => ⟨e.2, w.id, e.1⟩) ∧
      (s.world.fileWatches.map FileWatch.path).Nodup ∧
      (s.world.fileWatches.map FileWatch.id).Nodup ∧
      s.world.timers.map Timer.id = w.timer.toList) ∧
    (∀ op, (s.perform read op).world.compilations ≠ s.world.compilations →
      let s' := s.perform read op
      (∀ path, path ∈ s'.watchedFiles ↔
        path ∈ sources read s.world.disk options.input ∧ s'.world.disk.pathExists path) ∧
      (∀ e, options.plan read s.world.disk = .error e → ∀ path, path ∈ s'.watchedFiles ↔
        path = s'.world.disk.resolve options.input ∧ s'.world.disk.pathExists path) ∧
      (s'.world.disk.pathExists options.input →
        s'.world.disk.resolve options.input ∈ s'.watchedFiles)) ∧
    (∀ later, (∀ op ∈ later, op ≠ .start ∧ op ≠ .schedule) →
      let stopped := s.perform read .stop
      let s' := stopped.run read later
      s'.world.fileWatches = [] ∧ s'.world.timers = [] ∧
        s'.world.log = stopped.world.log ∧ s'.world.outcomes = stopped.world.outcomes) := by
  intro s
  have hs : s = Run.after ⟨read, d, options, ops⟩ ops.length := by rw [Run.after, List.take_length]
  obtain ⟨w, world, hrun, hholds, hoptions, htree⟩ := Run.induction ⟨read, d, options, ops⟩
    (P := fun _ _ world => world.disk.IsTree) hd
    (fun _ _ _ hholds _ htree hstep => hstep.isTree hholds htree) (Nat.le_refl ops.length)
  replace hoptions : w.options = options := hoptions
  rw [hs.trans hrun]
  refine ⟨⟨w, rfl, hholds.resources⟩, fun op hcompiled => ?_, fun later hlater => ?_⟩
  · obtain ⟨s', hstep, hperform⟩ := perform_alone read hholds op
    rw [hperform] at hcompiled ⊢
    dsimp only
    rw [watchedFiles_alone, ← hoptions]
    exact ⟨fun path => hstep.mem_watchedFiles hholds htree hcompiled,
      hstep.input_mem_watchedFiles hholds htree hcompiled⟩
  · have hstop : (alone w world).perform read .stop = alone (w.stop world).1 (w.stop world).2 :=
      act_alone (f := Watcher.stop) rfl
    obtain ⟨w', world', hlater', hidle, hlog, houtcomes⟩ := hholds.idle_stop.run hlater
    dsimp only
    rw [hstop, hlater']
    exact ⟨hidle.fileWatches, hidle.timers, hlog, houtcomes⟩

namespace Sample

def disk : Disk := ⟨["work"], []⟩

def options : WatchOptions := ⟨"c.yml", none, none, none⟩

/-- A configuration names two schemas, of which one is missing. -/
def ops : List Operation := [.write "c.yml" "schemas: [a.asdl, b.asdl]",
  .write "b.asdl" "module b \x7b t = (int x) \x7d"]

/-- The simulation after these writes. -/
def written : Simulation := (ofOptions disk options).run Yaml.read ops

/-- The simulation after these writes, a start and a request. -/
def requested : Simulation := (ofOptions disk options).run Yaml.read (ops ++ [.start, .schedule])

theorem isTree : disk.IsTree := Disk.isTree_empty fun name hname => by
  obtain rfl := List.mem_singleton.mp hname
  exact ⟨by decide, by decide, by decide, by decide⟩

theorem compiles : (written.perform Yaml.read .start).world.compilations ≠
    written.world.compilations := by decide +kernel

theorem sources_eq : sources Yaml.read written.world.disk options.input =
    ["/work/c.yml", "/work/a.asdl", "/work/b.asdl"] := by decide +kernel

end Sample

/-- The watcher of a configuration that names a missing schema watches the configuration and the
other schema. Stopped while it waits to compile again, it is not woken by a change or by time. -/
theorem resources_run_missing_schema :
    Sample.disk.IsTree ∧
    (∀ path, path ∈ (Sample.written.perform Yaml.read .start).watchedFiles ↔
      path ∈ ["/work/c.yml", "/work/a.asdl", "/work/b.asdl"] ∧
        (Sample.written.perform Yaml.read .start).world.disk.pathExists path) ∧
    (((Sample.requested.perform Yaml.read .stop).run Yaml.read
      [.change "c.yml" .change, .advance 1000]).world.log =
        (Sample.requested.perform Yaml.read .stop).world.log) := by
  obtain ⟨-, hwatched, -⟩ := resources_run Sample.isTree Yaml.read Sample.options Sample.ops
  obtain ⟨-, -, hstill⟩ :=
    resources_run Sample.isTree Yaml.read Sample.options (Sample.ops ++ [.start, .schedule])
  obtain ⟨-, -, hlog, -⟩ := hstill [.change "c.yml" .change, .advance 1000] (by decide)
  refine ⟨Sample.isTree, fun path => ?_, ?_⟩
  · rw [← Sample.sources_eq, Sample.written]
    exact (hwatched .start Sample.compiles).1 path
  · rw [Sample.requested]
    exact hlog

end Simulation

end Schemata.Watch
