import Schemata.Proofs.Lists
import Schemata.Watch.Simulation

/-!
# What a watcher holds

A watcher that is alone in a world holds the open file watches and the pending timers there: they
are those that it remembers, one for each path and at most one timer (`Watcher.Holds`). Bringing the
file watches in line with a list of files, stopping and asking for a compilation keep this.
-/

namespace Schemata.Watch.Watcher

variable {w w' : Watcher} {world world' : World} {d : Disk} {files : List String} {path : String}

/-- The file watch that an entry of a watcher remembers. -/
def fileWatch (owner : Nat) (e : String × Nat) : FileWatch := ⟨e.2, owner, e.1⟩

/-- The open file watches of a world are those that a watcher remembers, one for each path, and the
pending timers are the one that it remembers, if it does. -/
structure Holds (w : Watcher) (world : World) : Prop where
  fileWatches : world.fileWatches = w.watching.map (fileWatch w.id)
  paths : w.watchedFiles.Nodup
  numbers : (w.watching.map Prod.snd).Nodup
  used : ∀ e ∈ w.watching, e.2 < world.unused
  timers : ∃ due, world.timers = w.timer.toList.map fun id => ⟨id, w.id, due⟩

theorem holds_ofOptions (d : Disk) (id : Nat) (options : WatchOptions) :
    (ofOptions id options).Holds (.ofDisk d) where
  fileWatches := rfl
  paths := .nil
  numbers := .nil
  used := by simp [ofOptions]
  timers := ⟨0, rfl⟩

/-- What is held does not depend on the rest of the watcher and of the world. -/
theorem Holds.congr (h : w.Holds world) (hid : w'.id = w.id) (hwatching : w'.watching = w.watching)
    (htimer : w'.timer = w.timer) (hfileWatches : world'.fileWatches = world.fileWatches)
    (hunused : world'.unused = world.unused) (htimers : world'.timers = world.timers) :
    w'.Holds world' where
  fileWatches := by rw [hfileWatches, hwatching, hid, h.fileWatches]
  paths := by simpa [watchedFiles, hwatching] using h.paths
  numbers := by rw [hwatching]; exact h.numbers
  used := by rw [hwatching, hunused]; exact h.used
  timers := by rw [htimers, htimer, hid]; exact h.timers

/-! ## Opening and closing -/

theorem closeAll_eq (es : List (String × Nat)) (world : World) :
    es.foldl (fun world e => world.closeWatch e.2) world =
      { world with
        fileWatches := world.fileWatches.filter fun f => f.id ∉ es.map Prod.snd } := by
  induction es generalizing world with
  | nil => simp
  | cons e es ih =>
    rw [List.foldl_cons, ih]
    simp only [World.closeWatch, List.filter_filter, List.map_cons, List.mem_cons, not_or,
      Bool.decide_and, Bool.and_comm]

theorem openAll_eq (id : Nat) (paths : List String) (world : World) :
    openAll id paths world = (paths.zipIdx world.unused, { world with
      unused := world.unused + paths.length
      fileWatches := world.fileWatches ++
        (paths.zipIdx world.unused).map (fileWatch id) }) := by
  induction paths generalizing world with
  | nil => simp [openAll]
  | cons path paths ih =>
    rw [openAll]
    simp [World.openWatch, ih, fileWatch, Nat.add_comm, Nat.add_left_comm]

/-- Among entries with different numbers, closing some leaves the watches of the others. -/
theorem filter_fileWatch {es : List (String × Nat)} (h : (es.map Prod.snd).Nodup) (owner : Nat)
    (p : String × Nat → Bool) :
    (es.map (fileWatch owner)).filter (fun f => f.id ∉ (es.filter (!p ·)).map Prod.snd) =
      (es.filter p).map (fileWatch owner) := by
  rw [List.filter_map]
  congr 1
  refine List.filter_congr fun e he => ?_
  by_cases hp : p e
  · have hnot : e.2 ∉ (es.filter (!p ·)).map Prod.snd := by
      intro hmem
      obtain ⟨e', he', hnumber⟩ := List.mem_map.mp hmem
      obtain ⟨hmem', hp'⟩ := List.mem_filter.mp he'
      rw [List.inj_on_of_nodup_map h hmem' he hnumber, hp] at hp'
      cases hp'
    exact (decide_eq_true hnot).trans hp.symm
  · have hmem : e.2 ∈ (es.filter (!p ·)).map Prod.snd :=
      List.mem_map_of_mem (List.mem_filter.mpr ⟨he, by simpa using hp⟩)
    exact (decide_eq_false (not_not.mpr hmem)).trans (Bool.eq_false_iff.mpr hp).symm

/-! ## In line with a list of files -/

theorem mem_wanted : path ∈ wanted d files ↔
    ∃ file ∈ files, d.resolve file = path ∧ d.pathExists path := by
  simp only [wanted, List.mem_eraseDups, List.mem_filter, List.mem_map]
  grind

theorem nodup_wanted (d : Disk) (files : List String) : (wanted d files).Nodup :=
  Lists.nodup_eraseDups _

/-- The entries that stay when the given paths are wanted. -/
def kept (w : Watcher) (wanted : List String) : List (String × Nat) :=
  w.watching.filter (·.1 ∈ wanted)

/-- The wanted paths that are not watched yet. -/
def missing (w : Watcher) (wanted : List String) : List String :=
  wanted.filter (· ∉ (w.kept wanted).map Prod.fst)

theorem sync_eq (w : Watcher) (files : List String) (world : World) :
    w.sync files world =
      let wanted := wanted world.disk files
      let added := (w.missing wanted).zipIdx world.unused
      ({ w with watching := w.kept wanted ++ added }, { world with
        unused := world.unused + (w.missing wanted).length
        fileWatches :=
          (world.fileWatches.filter fun f =>
            f.id ∉ (w.watching.filter (·.1 ∉ wanted)).map Prod.snd) ++
          added.map (fileWatch w.id) }) := by
  unfold sync
  dsimp only
  rw [closeAll_eq, openAll_eq]
  rfl

/-- Bringing the file watches in line leaves the rest of the watcher as it is. -/
theorem sync_fst (w : Watcher) (files : List String) (world : World) :
    (w.sync files world).1 = { w with watching := (w.sync files world).1.watching } := rfl

/-- Bringing the file watches in line leaves the rest of the world as it is. -/
theorem sync_snd (w : Watcher) (files : List String) (world : World) :
    (w.sync files world).2 = { world with
      unused := (w.sync files world).2.unused
      fileWatches := (w.sync files world).2.fileWatches } := by
  rw [sync_eq]

theorem Holds.sync (h : w.Holds world) (files : List String) :
    (w.sync files world).1.Holds (w.sync files world).2 := by
  rw [sync_eq]
  generalize hwanted : wanted world.disk files = ps
  have hnodup : ps.Nodup := hwanted ▸ nodup_wanted _ _
  have hkept : (w.kept ps).Sublist w.watching := List.filter_sublist
  have hmissing : (w.missing ps).Nodup := hnodup.filter _
  refine ⟨?_, ?_, ?_, ?_, h.timers⟩
  · dsimp only
    rw [List.map_append, h.fileWatches]
    congr 1
    simpa only [decide_not, kept] using filter_fileWatch h.numbers w.id (·.1 ∈ ps)
  · rw [watchedFiles, List.map_append, List.zipIdx_map_fst, List.nodup_append]
    refine ⟨h.paths.sublist (hkept.map _), hmissing, ?_⟩
    rintro a ha b hb rfl
    simp [missing, ha] at hb
  · -- new watches have numbers that were not used before
    rw [List.map_append, List.zipIdx_map_snd, List.nodup_append]
    refine ⟨h.numbers.sublist (hkept.map _), List.nodup_range', ?_⟩
    rintro a ha b hb rfl
    obtain ⟨e, he, rfl⟩ := List.mem_map.mp ha
    have hlt := h.used e (hkept.subset he)
    have hge := (List.mem_range'_1.mp hb).1
    omega
  · intro e he
    rcases List.mem_append.mp he with he | he
    · exact Nat.lt_add_right _ (h.used e (hkept.subset he))
    · have := List.snd_lt_of_mem_zipIdx he
      simpa [Nat.add_comm] using this

/-- In line with a list of files, exactly those of them that exist are watched. -/
theorem mem_watchedFiles_sync : path ∈ (w.sync files world).1.watchedFiles ↔
    ∃ file ∈ files, world.disk.resolve file = path ∧ world.disk.pathExists path := by
  rw [sync_eq, watchedFiles, List.map_append, List.zipIdx_map_fst, ← mem_wanted, List.mem_append]
  generalize wanted world.disk files = ps
  simp only [missing, List.mem_filter, decide_eq_true_eq]
  constructor
  · rintro (hkept | hmissing)
    · obtain ⟨e, he, rfl⟩ := List.mem_map.mp hkept
      simpa using (List.mem_filter.mp he).2
    · exact hmissing.1
  · intro hpath
    exact (em _).imp_right fun hnot => ⟨hpath, hnot⟩

/-! ## Stopping and asking -/

/-- A world in which the timer of a watcher is taken back. -/
def withoutTimer (w : Watcher) (world : World) : World :=
  match w.timer with
  | some id => world.clearTimer id
  | none => world

theorem withoutTimer_eq (h : ∃ due, world.timers = w.timer.toList.map fun id => ⟨id, w.id, due⟩) :
    w.withoutTimer world = { world with timers := [] } := by
  obtain ⟨due, htimers⟩ := h
  cases htimer : w.timer with
  | none =>
    have hnone : world.timers = [] := by simpa [htimer] using htimers
    simp [withoutTimer, htimer, ← hnone]
  | some id => simp [withoutTimer, htimer, World.clearTimer, htimers]

theorem closeAll_watching (h : w.Holds world) :
    w.watching.foldl (fun world e => world.closeWatch e.2) world =
      { world with fileWatches := [] } := by
  rw [closeAll_eq]
  congr 1
  rw [h.fileWatches]
  simpa using filter_fileWatch h.numbers w.id fun _ => false

/-- The line that is logged when watches are closed by stopping. -/
def farewell (w : Watcher) : List LogEntry :=
  if w.watching.isEmpty then [] else [⟨.log, "🛑 Stopped watching schema files"⟩]

/-- Stopping leaves no file watch open and no timer pending. -/
theorem stop_eq (h : w.Holds world) :
    w.stop world = ({ w with watching := [], timer := none }, { world with
      fileWatches := []
      timers := []
      log := world.log ++ w.farewell }) := by
  have hclosed : (if w.watching.isEmpty then world
      else (w.watching.foldl (fun world e => world.closeWatch e.2) world).say .log
        "🛑 Stopped watching schema files") =
      { world with fileWatches := [], log := world.log ++ w.farewell } := by
    rw [closeAll_watching h]
    by_cases hempty : w.watching.isEmpty
    · have hnone : world.fileWatches = [] := by
        rw [h.fileWatches, List.isEmpty_iff.mp hempty, List.map_nil]
      simp [hempty, farewell, ← hnone]
    · simp [hempty, farewell, World.say]
  have hstop : w.stop world = ({ w with watching := [], timer := none }, w.withoutTimer
      (if w.watching.isEmpty then world
        else (w.watching.foldl (fun world e => world.closeWatch e.2) world).say .log
          "🛑 Stopped watching schema files")) := rfl
  rw [hstop, hclosed]
  exact congrArg (Prod.mk _) (withoutTimer_eq h.timers)

theorem Holds.stop (h : w.Holds world) : (w.stop world).1.Holds (w.stop world).2 := by
  rw [stop_eq h]
  exact ⟨rfl, .nil, .nil, by simp, ⟨0, rfl⟩⟩

theorem schedule_eq (h : w.Holds world) :
    w.schedule world = ({ w with timer := some world.unused }, { world with
      unused := world.unused + 1
      timers := [⟨world.unused, w.id, world.now + w.debounce⟩] }) := by
  have hschedule : w.schedule world =
      ({ w with timer := some ((w.withoutTimer world).setTimer w.id w.debounce).1 },
        ((w.withoutTimer world).setTimer w.id w.debounce).2) := rfl
  rw [hschedule, withoutTimer_eq h.timers]
  rfl

/-- Asking for a compilation leaves one timer pending, the new one. -/
theorem Holds.schedule (h : w.Holds world) :
    (w.schedule world).1.Holds (w.schedule world).2 := by
  rw [schedule_eq h]
  exact ⟨h.fileWatches, h.paths, h.numbers, fun e he => Nat.lt_succ_of_lt (h.used e he),
    ⟨_, rfl⟩⟩

end Schemata.Watch.Watcher
