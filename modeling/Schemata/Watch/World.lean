import Schemata.Build

/-!
# The surroundings of a watcher

A watcher reads and writes a disk, keeps files under watch, sets timers, writes to a log and reports
the outcome of each compilation. `World` holds all of this. Open file watches and pending timers
have numbers of their own and belong to a watcher.

Time is counted in milliseconds. The clock moves in whole ones, but a timer may be set for any time
from now, a fraction of a millisecond or a time that is already over as well as a long one.
-/

namespace Schemata.Watch

/-- Where a log line goes. -/
inductive Channel where
  | log
  | warn
  | error
deriving DecidableEq, Repr

def Channel.name : Channel → String
  | log => "log"
  | warn => "warn"
  | error => "error"

/-- A line of the log. -/
structure LogEntry where
  channel : Channel
  text : String
deriving DecidableEq, Repr

/-- What a compilation reports: success, or why it failed. -/
inductive Outcome where
  | success
  | failure (error : Failure)
deriving DecidableEq, Repr

/-- A file under watch. -/
structure FileWatch where
  id : Nat
  owner : Nat
  path : String
deriving DecidableEq, Repr

/-- A timer and the moment at which it is due. -/
structure Timer where
  id : Nat
  owner : Nat
  due : Rat
deriving DecidableEq, Repr

/-- Disk, clock, open file watches, pending timers in the order in which they were set, and what was
logged and reported, in order. `uncaught` are the failures of reports that nothing caught. -/
structure World where
  disk : Disk
  now : Nat
  unused : Nat
  fileWatches : List FileWatch
  timers : List Timer
  log : List LogEntry
  outcomes : List Outcome
  uncaught : List Failure
deriving DecidableEq, Repr

namespace World

/-- The world at the beginning. -/
def ofDisk (d : Disk) : World := ⟨d, 0, 0, [], [], [], [], []⟩

/-- Add a line to the log. -/
def say (w : World) (channel : Channel) (text : String) : World :=
  { w with log := w.log ++ [⟨channel, text⟩] }

/-- Put a file under watch. -/
def openWatch (w : World) (owner : Nat) (path : String) : Nat × World :=
  (w.unused, { w with
    unused := w.unused + 1
    fileWatches := w.fileWatches ++ [⟨w.unused, owner, path⟩] })

/-- End a file watch. -/
def closeWatch (w : World) (id : Nat) : World :=
  { w with fileWatches := w.fileWatches.filter (·.id ≠ id) }

/-- Set a timer that is due after a delay. -/
def setTimer (w : World) (owner : Nat) (delay : Rat) : Nat × World :=
  (w.unused, { w with
    unused := w.unused + 1
    timers := w.timers ++ [⟨w.unused, owner, w.now + delay⟩] })

/-- Take a timer back. -/
def clearTimer (w : World) (id : Nat) : World :=
  { w with timers := w.timers.filter (·.id ≠ id) }

/-- Report an outcome. -/
def report (w : World) (outcome : Outcome) : World :=
  { w with outcomes := w.outcomes ++ [outcome] }

/-- Let a failure pass that nothing catches. -/
def escape (w : World) (e : Failure) : World :=
  { w with uncaught := w.uncaught ++ [e] }

end World

end Schemata.Watch
