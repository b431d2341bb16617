import Schemata.Watch.World

/-!
# Watchers

A watcher compiles its input when it is started and again after changes. Each compilation brings the
file watches in line with the plan: exactly the planned files that exist are watched, or only the
input when there is no plan. Changes are answered after a waiting time, in which further changes
start the waiting anew, so that they lead to one compilation together.
-/

namespace Schemata.Watch

/-- What is called with the outcome of a compilation. It is given all outcomes that were reported,
the last of which is the new one. It may fail, and then it gives its failure. -/
abbrev Callback := List Outcome → Option Failure

/-- What a watcher is to do. Without a waiting time it takes that of the plan; outcomes are reported
only if there is something to call. -/
structure WatchOptions where
  input : String
  outputDir : Option String
  debounce : Option Rat
  onCompile : Option Callback

/-- A watcher: the waiting time in force, the files it watches with the numbers of their watches,
and the number of its pending timer. -/
structure Watcher where
  id : Nat
  options : WatchOptions
  debounce : Rat
  watching : List (String × Nat)
  timer : Option Nat

/-- The kind of a change in a directory. -/
inductive ChangeKind where
  | change
  | rename
deriving DecidableEq, Repr

/-- The waiting time of a plan, which is an integer. -/
def delayOf (x : Number) : Rat := (x.toInt?.getD 0 : Int)

namespace Watcher

/-- A watcher that was not started. -/
def ofOptions (id : Nat) (options : WatchOptions) : Watcher :=
  ⟨id, options, options.debounce.getD (delayOf Config.defaultDebounce), [], none⟩

/-- The paths of the files under watch. -/
def watchedFiles (w : Watcher) : List String := w.watching.map Prod.fst

/-- Watch files that are not watched yet. -/
def openAll (id : Nat) : List String → World → List (String × Nat) × World
  | [], world => ([], world)
  | path :: paths, world =>
    let (number, world) := world.openWatch id path
    let (rest, world) := openAll id paths world
    ((path, number) :: rest, world)

/-- The files to watch out of planned ones: those that exist, each once. -/
def wanted (d : Disk) (files : List String) : List String :=
  ((files.map d.resolve).filter d.pathExists).eraseDups

/-- Watch exactly the given files, as far as they exist. -/
def sync (w : Watcher) (files : List String) (world : World) : Watcher × World :=
  let wanted := wanted world.disk files
  let kept := w.watching.filter (·.1 ∈ wanted)
  let dropped := w.watching.filter (·.1 ∉ wanted)
  let world := dropped.foldl (fun world e => world.closeWatch e.2) world
  let (added, world) := openAll w.id (wanted.filter (· ∉ kept.map Prod.fst)) world
  ({ w with watching := kept ++ added }, world)

/-- Report an outcome if there is something to call, giving the failure of the call if it fails. -/
def report (w : Watcher) (outcome : Outcome) (world : World) : Option Failure × World :=
  match w.options.onCompile with
  | none => (none, world)
  | some call => (call (world.outcomes ++ [outcome]), world.report outcome)

/-- Log a failed compilation. -/
def sayFailed (text : String) (world : World) : World :=
  world.say .error ("❌ Compilation failed: " ++ text)

/-- What is logged of a failure. -/
def failureText (w : Watcher) : Failure → String
  | .schema e => e.diagnostic.format (some w.options.input)
  | e => e.message

/-- Log and report a failure. Nothing catches a failure of this report. -/
def fail (w : Watcher) (e : Failure) (world : World) : World :=
  match w.report (.failure e) (sayFailed (w.failureText e) world) with
  | (none, world) => world
  | (some e, world) => world.escape e

/-- Report the result of a build. A failure of this report counts as one of the compilation. -/
def reportResult (w : Watcher) (outcome : Outcome) (world : World) : World :=
  match w.report outcome world with
  | (none, world) => world
  | (some e, world) => w.fail e world

/-- Log the warnings of a build. -/
def sayWarnings (warnings : List FileDiagnostic) (world : World) : World :=
  warnings.foldl (fun world d =>
    world.say .warn ("⚠️  " ++ d.diagnostic.format (some (world.disk.relative d.file)))) world

/-- Log and report the result of a build. -/
def conclude (w : Watcher) (result : Except FileError BuildResult) (world : World) : World :=
  match result with
  | .error e => w.fail (.file e) world
  | .ok (.failed file e warnings) =>
    let world := sayWarnings warnings world
    let text := e.toSchemaError.diagnostic.format (some (world.disk.relative file))
    w.reportResult (.failure (.schema e.toSchemaError)) (sayFailed text world)
  | .ok (.built _ written warnings) =>
    let world := (sayWarnings warnings world).say .log "✅ Schema compiled successfully"
    let world := written.foldl (fun world file =>
      world.say .log ("   → " ++ world.disk.relative file)) world
    w.reportResult .success world

variable (read : Yaml.Reader)

/-- Compile the input. -/
def compile (w : Watcher) (world : World) : Watcher × World :=
  match BuildPlan.make read world.disk w.options.input w.options.outputDir (some "./generated") with
  | .error e =>
    let (w, world) := w.sync [w.options.input] world
    (w, w.fail e world)
  | .ok plan =>
    let (w, world) := w.sync plan.watchFiles world
    let w := { w with debounce := w.options.debounce.getD (delayOf plan.debounce) }
    let (result, disk) := Build.run world.disk plan.build
    (w, w.conclude result { world with disk := disk })

/-- Start watching, unless the input does not exist. -/
def start (w : Watcher) (world : World) : Option (Watcher × World) :=
  if world.disk.pathExists w.options.input then
    some (w.compile read (world.say .log ("👀 Watching " ++ w.options.input ++ " for changes...")))
  else none

/-- What is said when the input does not exist. -/
def missingInput (w : Watcher) : String := "Schema file not found: " ++ w.options.input

/-- Stop watching: close all file watches and take a pending timer back. -/
def stop (w : Watcher) (world : World) : Watcher × World :=
  let world :=
    if w.watching.isEmpty then world
    else
      (w.watching.foldl (fun world e => world.closeWatch e.2) world).say .log
        "🛑 Stopped watching schema files"
  let world := match w.timer with
    | some id => world.clearTimer id
    | none => world
  ({ w with watching := [], timer := none }, world)

/-- Ask for a compilation after the waiting time, instead of one asked for before. -/
def schedule (w : Watcher) (world : World) : Watcher × World :=
  let world := match w.timer with
    | some id => world.clearTimer id
    | none => world
  let (id, world) := world.setTimer w.id w.debounce
  ({ w with timer := some id }, world)

/-- Compile because the waiting time is over. -/
def fire (w : Watcher) (world : World) : Watcher × World :=
  { w with timer := none }.compile read (world.say .log "📝 Schema changed, recompiling...")

/-- Answer a change of a watched file; renames call for nothing. -/
def onChange (w : Watcher) (kind : ChangeKind) (world : World) : Watcher × World :=
  match kind with
  | .change => w.schedule world
  | .rename => (w, world)

end Watcher

end Schemata.Watch
