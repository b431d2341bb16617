import Schemata.Watch.Watcher

/-!
# Watchers over time

A simulation runs watchers in a world whose clock and file changes are given from outside. Time
stands still but for `advance`, which moves it at once and then lets every timer that is due fire,
in the order in which they were set; timers set by these wait for the next advance. A watcher may be
replaced by another one, and keeps its file watches and its timer then.
-/

namespace Schemata.Watch

/-- A world with the watchers in it; `current` is the number of the one that is operated. -/
structure Simulation where
  world : World
  watchers : List Watcher
  current : Nat

namespace Simulation

variable (read : Yaml.Reader)

/-- One watcher that was not started. -/
def ofOptions (d : Disk) (options : WatchOptions) : Simulation :=
  ⟨.ofDisk d, [.ofOptions 0 options], 0⟩

/-- The watcher of a number. -/
def find? (s : Simulation) (id : Nat) : Option Watcher := s.watchers.find? (·.id = id)

/-- Let the watcher of a number act. -/
def act (s : Simulation) (id : Nat) (f : Watcher → World → Watcher × World) : Simulation :=
  match s.find? id with
  | none => s
  | some w =>
    let (w', world) := f w s.world
    { s with world := world, watchers := s.watchers.map fun v => if v.id = id then w' else v }

/-- Start the current watcher; `none` if its input does not exist. -/
def start (s : Simulation) : Option Simulation :=
  match s.find? s.current with
  | none => none
  | some w =>
    match w.start read s.world with
    | none => none
    | some (w', world) =>
      some { s with
        world := world
        watchers := s.watchers.map fun v => if v.id = w.id then w' else v }

/-- Replace the current watcher by a new one that is started; `none` if its input does not exist. -/
def replace (s : Simulation) (options : WatchOptions) : Option Simulation :=
  let id := s.watchers.length
  start read { s with watchers := s.watchers ++ [Watcher.ofOptions id options], current := id }

def stop (s : Simulation) : Simulation := s.act s.current Watcher.stop

def schedule (s : Simulation) : Simulation := s.act s.current Watcher.schedule

/-- Let a timer fire, if it is still pending. -/
def fire (s : Simulation) (t : Timer) : Simulation :=
  if t ∈ s.world.timers then
    { s with world := s.world.clearTimer t.id }.act t.owner (Watcher.fire read)
  else s

/-- Move the clock and let the timers fire that are due. -/
def advance (s : Simulation) (ms : Nat) : Simulation :=
  let s := { s with world := { s.world with now := s.world.now + ms } }
  (s.world.timers.filter (·.due ≤ (s.world.now : Rat))).foldl (fire read) s

/-- Tell the watchers of a file about a change. -/
def change (s : Simulation) (path : String) (kind : ChangeKind) : Simulation :=
  let path := s.world.disk.resolve path
  (s.world.fileWatches.filter (·.path = path)).foldl
    (fun s f => s.act f.owner (·.onChange kind)) s

/-- Change the disk from outside. -/
def editDisk (s : Simulation) (f : Disk → Disk) : Simulation :=
  { s with world := { s.world with disk := f s.world.disk } }

/-- The files that the current watcher watches. -/
def watchedFiles (s : Simulation) : List String :=
  ((s.find? s.current).map Watcher.watchedFiles).getD []

/-- Milliseconds that are left of each timer. -/
def pending (s : Simulation) : List Rat := s.world.timers.map fun t => t.due - s.world.now

end Simulation

end Schemata.Watch
