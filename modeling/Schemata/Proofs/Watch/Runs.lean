import Schemata.Proofs.Watch.Compiling

/-!
# Runs of a watcher

A run performs operations one after the other: a watcher is started, stopped and asked for a
compilation, time moves on, changes are reported, and files are written and removed from outside.
`Watcher.Step` says all that an operation can do to a watcher that is alone in a world and to this
world (`Simulation.perform_alone`); what holds of every run is derived from it.
-/

namespace Schemata

/-- Write a file from outside, with the directories above it that are missing, unless something is
in the way. -/
def Disk.deposit (d : Disk) (path content : String) : Disk :=
  let place := d.placeOf path
  match d.makeDirectories (FilePath.absolute place.dropLast) with
  | .error _ => d
  | .ok d' =>
    match d'.write (FilePath.absolute place) content with
    | .error _ => d'
    | .ok d'' => d''

/-- Remove from outside what a path leads to. -/
def Disk.remove (d : Disk) (path : String) : Disk := d.erase (d.placeOf path)

theorem Disk.IsTree.deposit {d : Disk} (h : d.IsTree) (path content : String) :
    (d.deposit path content).IsTree := by
  unfold Disk.deposit
  dsimp only
  split
  · exact h
  · next hmake =>
    have h' := h.makeDirectories (FilePath.isAbsolute_absolute _) hmake
    split
    · exact h'
    · next hwrite => exact h'.write (FilePath.isAbsolute_absolute _) hwrite

theorem Disk.IsTree.remove {d : Disk} (h : d.IsTree) (path : String) : (d.remove path).IsTree :=
  h.erase _

namespace Watch

/-- What happens to a watcher. -/
inductive Operation where
  | start
  | stop
  | schedule
  | advance (ms : Nat)
  | change (path : String) (kind : ChangeKind)
  | write (path content : String)
  | remove (path : String)
deriving DecidableEq, Repr

variable (read : Yaml.Reader)

namespace Simulation

/-- Perform an operation. A start that is refused leaves all as it is. -/
def perform (s : Simulation) : Operation → Simulation
  | .start => (s.start read).getD s
  | .stop => s.stop
  | .schedule => s.schedule
  | .advance ms => s.advance read ms
  | .change path kind => s.change path kind
  | .write path content => s.editDisk (·.deposit path content)
  | .remove path => s.editDisk (·.remove path)

/-- Perform operations one after the other. -/
def run (s : Simulation) (ops : List Operation) : Simulation := ops.foldl (perform read) s

theorem run_concat (s : Simulation) (ops : List Operation) (op : Operation) :
    s.run read (ops ++ [op]) = (s.run read ops).perform read op := List.foldl_concat ..

/-- A watcher that is alone in a world. -/
def alone (w : Watcher) (world : World) : Simulation := ⟨world, [w], w.id⟩

@[simp] theorem alone_world (w : Watcher) (world : World) : (alone w world).world = world := rfl

end Simulation

/-- An operation asks for a compilation: directly, or by a change of a file under watch. -/
def World.Requests (world : World) (op : Operation) : Prop :=
  op = .schedule ∨ ∃ path, op = .change path .change ∧
    ∃ f ∈ world.fileWatches, f.path = world.disk.resolve path

/-- The world in which a watcher has said that it starts. -/
def Watcher.announce (w : Watcher) (world : World) : World :=
  world.say .log ("👀 Watching " ++ w.options.input ++ " for changes...")

/-- What an operation does to a watcher and its world. -/
inductive Watcher.Step (w : Watcher) (world : World) : Operation → Watcher × World → Prop where
  | refuse (h : ¬world.disk.pathExists w.options.input) : Step w world .start (w, world)
  | start (h : world.disk.pathExists w.options.input) :
    Step w world .start (w.compile read (w.announce world))
  | stop : Step w world .stop (w.stop world)
  | request {op : Operation} (h : world.Requests op) : Step w world op (w.schedule world)
  | ignore {path : String} {kind : ChangeKind} (h : ¬world.Requests (.change path kind)) :
    Step w world (.change path kind) (w, world)
  | wait {ms : Nat} (h : ∀ t ∈ world.timers, ((world.now + ms : Nat) : Rat) < t.due) :
    Step w world (.advance ms) (w, { world with now := world.now + ms })
  | fire {ms : Nat} {t : Timer} (ht : world.timers = [t]) (hdue : t.due ≤ ((world.now + ms : Nat) : Rat)) :
    Step w world (.advance ms) (w.fire read { world with now := world.now + ms, timers := [] })
  | write (path content : String) :
    Step w world (.write path content) (w, { world with disk := world.disk.deposit path content })
  | remove (path : String) :
    Step w world (.remove path) (w, { world with disk := world.disk.remove path })

variable {read}

namespace Simulation

variable {w : Watcher} {world : World} {op : Operation}

theorem find?_alone (w : Watcher) (world : World) : (alone w world).find? w.id = some w := by
  simp [find?, alone]

theorem act_alone {f : Watcher → World → Watcher × World} (h : (f w world).1.id = w.id) :
    (alone w world).act w.id f = alone (f w world).1 (f w world).2 := by
  rw [act, find?_alone]
  simp [alone, h]

theorem start_alone (w : Watcher) (world : World) :
    (alone w world).start read =
      if world.disk.pathExists w.options.input then
        some (alone (w.compile read (w.announce world)).1 (w.compile read (w.announce world)).2)
      else none := by
  have hfind : (alone w world).find? (alone w world).current = some w := find?_alone w world
  have hstart : w.start read world =
      if world.disk.pathExists w.options.input then some (w.compile read (w.announce world))
      else none := rfl
  rw [start, hfind]
  dsimp only
  rw [alone_world, hstart]
  by_cases hexists : world.disk.pathExists w.options.input
  · have hid : (w.compile read (w.announce world)).1.id = w.id := by rw [Watcher.compile_fst]
    simp [alone, hid, hexists]
  · simp [hexists]

/-- At most one watch is open for a path. -/
theorem filter_path (h : w.Holds world) (path : String) :
    world.fileWatches.filter (·.path = path) = [] ∨
      ∃ f, world.fileWatches.filter (·.path = path) = [f] ∧ f.owner = w.id := by
  have howner : ∀ f ∈ world.fileWatches, f.owner = w.id := by
    intro f hf
    rw [h.fileWatches] at hf
    obtain ⟨e, -, rfl⟩ := List.mem_map.mp hf
    rfl
  have hpaths : (world.fileWatches.map FileWatch.path).Nodup := by
    rw [h.fileWatches, List.map_map]
    exact h.paths
  cases hfilter : world.fileWatches.filter (·.path = path) with
  | nil => exact .inl rfl
  | cons f rest =>
    have hmem : ∀ g ∈ f :: rest, g ∈ world.fileWatches ∧ g.path = path := fun g hg =>
      (List.mem_filter.mp (hfilter ▸ hg)).imp_right of_decide_eq_true
    have hnodup : ((f :: rest).map FileWatch.path).Nodup := hfilter ▸
      hpaths.sublist (List.filter_sublist.map _)
    have hrest : rest = [] := by
      refine List.eq_nil_iff_forall_not_mem.mpr fun g hg => ?_
      refine (List.nodup_cons.mp hnodup).1 (List.mem_map.mpr ⟨g, hg, ?_⟩)
      rw [(hmem g (List.mem_cons_of_mem _ hg)).2, (hmem f (List.mem_cons_self ..)).2]
    exact .inr ⟨f, by rw [hrest], howner f (hmem f (List.mem_cons_self ..)).1⟩

theorem change_alone (h : w.Holds world) (path : String) (kind : ChangeKind) :
    ∃ s, w.Step read world (.change path kind) s ∧ (alone w world).change path kind = alone s.1 s.2 := by
  have hchange : (alone w world).change path kind =
      (world.fileWatches.filter (·.path = world.disk.resolve path)).foldl
        (fun s f => s.act f.owner (·.onChange kind)) (alone w world) := rfl
  rw [hchange]
  rcases filter_path h (world.disk.resolve path) with hnone | ⟨f, hone, howner⟩
  · have hnot : ¬world.Requests (.change path kind) := by
      rintro (hop | ⟨path', hop, f, hf, hpath⟩)
      · cases hop
      · cases hop
        simpa [hpath] using List.filter_eq_nil_iff.mp hnone f hf
    exact ⟨_, .ignore hnot, by rw [hnone]; rfl⟩
  · rw [hone, List.foldl_cons, List.foldl_nil, howner]
    cases kind with
    | change =>
      obtain ⟨hf, hpath⟩ := List.mem_filter.mp (hone ▸ List.mem_singleton_self f)
      have hrequests : world.Requests (.change path .change) :=
        .inr ⟨path, rfl, f, hf, by simpa using hpath⟩
      exact ⟨_, .request hrequests, act_alone rfl⟩
    | rename =>
      have hnot : ¬world.Requests (.change path .rename) := by
        rintro (hop | ⟨_, hop, -⟩) <;> cases hop
      exact ⟨_, .ignore hnot, act_alone rfl⟩

theorem advance_alone (h : w.Holds world) (ms : Nat) :
    ∃ s, w.Step read world (.advance ms) s ∧
      (alone w world).advance read ms = alone s.1 s.2 := by
  have hadvance : (alone w world).advance read ms =
      (world.timers.filter (·.due ≤ ((world.now + ms : Nat) : Rat))).foldl (fire read)
        (alone w { world with now := world.now + ms }) := rfl
  rw [hadvance]
  obtain ⟨due, htimers⟩ := h.timers
  cases htimer : w.timer with
  | none =>
    have hnone : world.timers = [] := by simpa [htimer] using htimers
    exact ⟨_, .wait (by simp [hnone]), by rw [hnone]; rfl⟩
  | some id =>
    have hone : world.timers = [⟨id, w.id, due⟩] := by simpa [htimer] using htimers
    by_cases hdue : due ≤ ((world.now + ms : Nat) : Rat)
    · refine ⟨_, .fire hone hdue, ?_⟩
      have hfire : (alone w { world with now := world.now + ms }).fire read ⟨id, w.id, due⟩ =
          (alone w { world with now := world.now + ms, timers := [] }).act w.id
            (Watcher.fire read) := by
        rw [fire, if_pos (by simp [alone, hone])]
        simp [alone, World.clearTimer, hone]
      have hfilter : world.timers.filter (·.due ≤ ((world.now + ms : Nat) : Rat)) =
          [⟨id, w.id, due⟩] := by
        simp only [hone, List.filter_cons, hdue, decide_true, if_true, List.filter_nil]
      rw [hfilter, List.foldl_cons, List.foldl_nil, hfire]
      refine act_alone ?_
      rw [Watcher.fire, Watcher.compile_fst]
    · refine ⟨_, .wait ?_, ?_⟩
      · rw [hone]
        exact List.forall_mem_singleton.mpr (Rat.not_le.mp hdue)
      have hfilter : world.timers.filter (·.due ≤ ((world.now + ms : Nat) : Rat)) = [] := by
        simp only [hone, List.filter_cons, hdue, decide_false, Bool.false_eq_true, if_false,
          List.filter_nil]
      rw [hfilter, List.foldl_nil]

/-- What an operation does to a watcher that is alone. -/
theorem perform_alone (read : Yaml.Reader) (h : w.Holds world) (op : Operation) :
    ∃ s, w.Step read world op s ∧ (alone w world).perform read op = alone s.1 s.2 := by
  cases op with
  | start =>
    by_cases hexists : world.disk.pathExists w.options.input
    · exact ⟨_, .start hexists, by simp [perform, start_alone, hexists]⟩
    · exact ⟨_, .refuse hexists, by simp [perform, start_alone, hexists]⟩
  | stop => exact ⟨_, .stop, act_alone (f := Watcher.stop) rfl⟩
  | schedule => exact ⟨_, .request (.inl rfl), act_alone (f := Watcher.schedule) rfl⟩
  | advance ms => exact advance_alone h ms
  | change path kind => exact change_alone h path kind
  | write path content => exact ⟨_, .write path content, rfl⟩
  | remove path => exact ⟨_, .remove path, rfl⟩

end Simulation

/-! ## What every step keeps -/

namespace Watcher

variable {w : Watcher} {world : World} {op : Operation} {s : Watcher × World}

theorem compilations_announce (w : Watcher) (world : World) :
    (w.announce world).compilations = world.compilations + 1 := by
  have hbegins : LogEntry.begins ⟨.log, "👀 Watching " ++ w.options.input ++ " for changes..."⟩ := by
    simp [LogEntry.begins]
  rw [announce, World.say_eq_tell, World.compilations_tell, List.countP_singleton, if_pos hbegins]

theorem compilations_changed (world : World) :
    (world.say .log "📝 Schema changed, recompiling...").compilations = world.compilations + 1 := by
  rw [World.say_eq_tell, World.compilations_tell]
  rfl

/-- When an operation makes a watcher compile: a start does if the input exists, and an advance if
it reaches the time at which the pending timer is due. -/
def Compiles (w : Watcher) (world : World) (op : Operation) : Prop :=
  (op = .start ∧ world.disk.pathExists w.options.input) ∨
    ∃ ms t, op = .advance ms ∧ t ∈ world.timers ∧ t.due ≤ ((world.now + ms : Nat) : Rat)

theorem silent_farewell (w : Watcher) : Silent w.farewell := by
  unfold farewell
  split
  · exact List.forall_mem_nil _
  · exact List.forall_mem_singleton.mpr (begins_eq_false_of_head? (by simp) (by simp))

theorem not_compiles_of_requests (w : Watcher) (h : world.Requests op) : ¬w.Compiles world op := by
  rintro (⟨rfl, -⟩ | ⟨ms, t, rfl, -, -⟩) <;>
  · rcases h with hop | ⟨_, hop, -⟩ <;> cases hop

/-- A step compiles in a world that differs from the one before only in the clock, the timers and
the log, which says that a compilation begins, or it says and reports nothing of one. -/
theorem Step.compiles_or (h : w.Step read world op s) (hholds : w.Holds world) :
    (w.Compiles world op ∧ ∃ timer world', s = ({ w with timer := timer }).compile read world' ∧
      world'.disk = world.disk ∧ world'.compilations = world.compilations + 1 ∧
      world'.outcomes = world.outcomes) ∨
    (¬w.Compiles world op ∧ s.1.debounce = w.debounce ∧
      s.2.compilations = world.compilations ∧ s.2.outcomes = world.outcomes) := by
  cases h with
  | refuse hmissing => exact .inr ⟨by simp [Compiles, hmissing], rfl, rfl, rfl⟩
  | start hexists =>
    exact .inl ⟨.inl ⟨rfl, hexists⟩, w.timer, _, rfl, rfl, compilations_announce w world, rfl⟩
  | stop =>
    rw [stop_eq hholds]
    refine .inr ⟨by simp [Compiles], rfl, ?_, rfl⟩
    simp [World.compilations, List.countP_append, (silent_farewell w).countP_eq_zero]
  | request hrequests =>
    rw [schedule_eq hholds]
    exact .inr ⟨not_compiles_of_requests w hrequests, rfl, rfl, rfl⟩
  | ignore => exact .inr ⟨by simp [Compiles], rfl, rfl, rfl⟩
  | @wait ms hwait =>
    refine .inr ⟨?_, rfl, rfl, rfl⟩
    rintro (⟨hop, -⟩ | ⟨ms', t, hop, ht, hdue⟩)
    · cases hop
    · cases hop
      exact absurd hdue (Rat.not_le.mpr (hwait t ht))
  | @fire ms t ht hdue =>
    exact .inl ⟨.inr ⟨ms, t, rfl, by simp [ht], hdue⟩, none, _, rfl, rfl, compilations_changed _, rfl⟩
  | write | remove => exact .inr ⟨by simp [Compiles], rfl, rfl, rfl⟩

theorem Step.holds (h : w.Step read world op s) (hholds : w.Holds world) : s.1.Holds s.2 := by
  cases h with
  | refuse | ignore => exact hholds
  | start => exact (hholds.congr rfl rfl rfl rfl rfl rfl : w.Holds (w.announce world)).compile
  | stop => exact hholds.stop
  | request => exact hholds.schedule
  | wait | write | remove => exact hholds.congr rfl rfl rfl rfl rfl rfl
  | fire =>
    exact Holds.compile ⟨hholds.fileWatches, hholds.paths, hholds.numbers, hholds.used, ⟨0, rfl⟩⟩

theorem Step.options (h : w.Step read world op s) : s.1.options = w.options := by
  cases h with
  | start | fire => exact compile_options _ _
  | _ => rfl

theorem isTree_compile (w : Watcher) (hd : world.disk.IsTree) :
    (w.compile read world).2.disk.IsTree := by
  rw [(compile_snd w world).1]
  exact WatchOptions.isTree_rebuilt hd

theorem Step.isTree (h : w.Step read world op s) (hholds : w.Holds world) (hd : world.disk.IsTree) :
    s.2.disk.IsTree := by
  cases h with
  | refuse | ignore | wait => exact hd
  | start | fire => exact isTree_compile _ hd
  | stop => rwa [stop_eq hholds]
  | request => rwa [schedule_eq hholds]
  | write path content => exact hd.deposit path content
  | remove path => exact hd.remove path

end Watcher

/-! ## Runs -/

/-- A run of a watcher: how documents are read, the disk at the beginning, what the watcher is to
do, and what happens. -/
structure Run where
  read : Yaml.Reader
  disk : Disk
  options : WatchOptions
  ops : List Operation

/-- The simulation after the first operations of a run. -/
def Run.after (r : Run) (n : Nat) : Simulation :=
  (Simulation.ofOptions r.disk r.options).run r.read (r.ops.take n)

theorem Run.after_succ {r : Run} {n : Nat} {op : Operation} (hop : r.ops[n]? = some op) :
    r.after (n + 1) = (r.after n).perform r.read op := by
  rw [after, after, List.take_add_one, hop, Option.toList_some, Simulation.run_concat]

/-- What holds of a new watcher and is kept by every step holds throughout a run. -/
theorem Run.induction (r : Run) {P : Nat → Watcher → World → Prop}
    (initial : P 0 (.ofOptions 0 r.options) (.ofDisk r.disk))
    (step : ∀ {n op w world s}, r.ops[n]? = some op → r.after n = .alone w world →
      r.after (n + 1) = .alone s.1 s.2 → w.Holds world → w.options = r.options →
      P n w world → w.Step r.read world op s → P (n + 1) s.1 s.2)
    {n : Nat} (hn : n ≤ r.ops.length) :
    ∃ w world, r.after n = .alone w world ∧ w.Holds world ∧ w.options = r.options ∧
      P n w world := by
  induction n with
  | zero => exact ⟨_, _, rfl, Watcher.holds_ofOptions r.disk 0 r.options, rfl, initial⟩
  | succ n ih =>
    obtain ⟨w, world, hafter, hholds, hoptions, hP⟩ := ih (Nat.le_of_succ_le hn)
    have hop : r.ops[n]? = some r.ops[n] := List.getElem?_eq_getElem hn
    obtain ⟨s, hstep, hperform⟩ := Simulation.perform_alone r.read hholds r.ops[n]
    have hnext : r.after (n + 1) = .alone s.1 s.2 := by
      rw [after_succ hop, hafter, hperform]
    exact ⟨s.1, s.2, hnext, hstep.holds hholds, hstep.options.trans hoptions,
      step hop hafter hnext hholds hoptions hP hstep⟩

end Watch

end Schemata
