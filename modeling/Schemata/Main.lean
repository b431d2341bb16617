import Schemata.Command
import Schemata.Yaml.Document

/-!
# The command line

The first argument names the command, `asdl-compile` or `asdl-watch`; the others are its arguments.
What a command sees of the file system is read into a `Disk` first, and what it changed there is
written afterwards. The watcher looks at its files ten times a second until the program is ended.
-/

namespace Schemata.Main

/-- The error number of reading a directory as if it were a file. -/
def readOfDirectory : UInt32 := 21

/-- What stands at a path of the file system. -/
def entryAt (path : String) : IO (Option FileEntry) := do
  try
    let content ← IO.FS.readFile path
    return some (.file content)
  catch e =>
    match e with
    | .inappropriateType _ code _ =>
      return if code = readOfDirectory then some .directory else none
    | _ => return none

/-- Add what stands at an absolute path, and at the directories above it, to a disk. -/
def load (d : Disk) (path : String) : IO Disk := do
  let names := FilePath.names path
  let places := (List.range names.length).map fun n => names.take (n + 1)
  places.foldlM (fun d place => do
    match ← entryAt (FilePath.absolute place) with
    | some entry => return d.put place entry
    | none => return d) d

/-- The disk as far as a build of an input can see it. -/
def observe (input : String) (outputDir fallback : Option String) : IO Disk := do
  let current := (← IO.currentDir).toString
  let empty : Disk := ⟨FilePath.names current, []⟩
  let d ← load (← load empty current) (empty.resolve input)
  match BuildPlan.make Yaml.read d input outputDir fallback with
  | .error _ => return d
  | .ok plan => (plan.build.outputDir :: plan.watchFiles).foldlM load d

/-- Write what is different on a disk to the file system. -/
def apply (old new : Disk) : IO Unit := do
  for (place, entry) in new.entries do
    if old.find? place ≠ some entry then
      match entry with
      | .directory => IO.FS.createDirAll (FilePath.absolute place)
      | .file content => IO.FS.writeFile (FilePath.absolute place) content

/-- Print lines on the two output streams. -/
def printLines (out err : List String) : IO Unit := do
  out.forM fun line => IO.println line
  (← IO.getStdout).flush
  err.forM fun line => IO.eprintln line

/-- Run `asdl-compile`. -/
def compile (args : List String) : IO UInt32 := do
  let d ← observe (args.headD "") args.tail.head? none
  let r := Command.compile Yaml.read d args
  apply d r.disk
  printLines r.out r.err
  return r.exit.toUInt32

/-- Print what was logged since a number of lines. -/
def printLog (s : Watch.Simulation) (seen : Nat) : IO Unit := do
  let fresh := s.world.log.drop seen
  printLines (Command.logLines fresh true) (Command.logLines fresh false)

/-- Keep a started watcher going. -/
partial def keepWatching (args : WatchArgs) (s : Watch.Simulation) (time : Nat) : IO UInt32 := do
  IO.sleep 100
  let before := s.world.disk
  let after ← observe args.input args.outputDir (some "./generated")
  let changed := s.watchedFiles.filter fun path =>
    before.find? (FilePath.names path) ≠ after.find? (FilePath.names path)
  let s := s.editDisk fun _ => after
  let s := changed.foldl (fun s path => s.change path .change) s
  let now ← IO.monoMsNow
  let next := s.advance Yaml.read (now - time)
  apply after next.world.disk
  printLog next s.world.log.length
  keepWatching args next now

/-- Run `asdl-watch`. -/
def watch (args : List String) : IO UInt32 := do
  match WatchArgs.ofWords args with
  | none =>
    printLines [] Command.watchUsage
    return 1
  | some a =>
    let d ← observe a.input a.outputDir (some "./generated")
    let options := Command.watchOptions a
    match (Watch.Simulation.ofOptions d options).start Yaml.read with
    | none =>
      printLines [] ["✗ " ++ (Watch.Watcher.ofOptions 0 options).missingInput]
      return 1
    | some s =>
      apply d s.world.disk
      printLog s 0
      keepWatching a s (← IO.monoMsNow)

end Schemata.Main

/-- Run the command that the first argument names. -/
def main (args : List String) : IO UInt32 :=
  match args with
  | "asdl-watch" :: rest => Schemata.Main.watch rest
  | "asdl-compile" :: rest => Schemata.Main.compile rest
  | rest => Schemata.Main.compile rest
