import Schemata.Watch.Args
import Schemata.Watch.Simulation

/-!
# Commands

`asdl-compile` builds an input once; `asdl-watch` watches it until it gets a signal. A command maps
a disk and its arguments to lines on the two output streams, an exit code and the disk afterwards.
-/

namespace Schemata

/-- What a command leaves behind. -/
structure CommandResult where
  exit : Nat
  out : List String
  err : List String
  disk : Disk
deriving DecidableEq, Repr

namespace Command

variable (read : Yaml.Reader)

/-- Lines of an output stream as a text. -/
def streamText (lines : List String) : String := String.join (lines.map (· ++ "\n"))

def compileUsage : List String :=
  ["Usage: asdl-compile <input.asdl|asdl.config.yaml> [output-dir]", "", "Examples:",
    "  asdl-compile arith.asdl", "  asdl-compile asdl.config.yaml ./generated"]

def watchUsage : List String :=
  ["Usage: asdl-watch <input.asdl|asdl.config.yaml> [output-dir] [--debounce <ms>]", "",
    "Examples:", "  asdl-watch arith.asdl",
    "  asdl-watch asdl.config.yaml ./generated --debounce 100"]

/-- Lines that tell why a command failed. All problems of a configuration are listed. -/
def failureLines (input : String) : Failure → List String
  | .schema e =>
    let head := "✗ " ++ e.diagnostic.format (some input)
    match e with
    | .config c => head :: c.diagnostics.map fun d => "  " ++ d.format (some input)
    | _ => [head]
  | e => ["Error: " ++ e.message]

/-- Lines for the warnings of a build. -/
def warningLines (d : Disk) (warnings : List FileDiagnostic) : List String :=
  warnings.map fun w => "⚠ " ++ w.diagnostic.format (some (d.relative w.file))

/-- The command `asdl-compile`. -/
def compile (d : Disk) (args : List String) : CommandResult :=
  match args with
  | [] => ⟨1, [], compileUsage, d⟩
  | input :: rest =>
    match BuildPlan.make read d input rest.head? none with
    | .error e => ⟨1, [], failureLines input e, d⟩
    | .ok plan =>
      let opening := "Compiling " ++ ", ".intercalate (plan.build.inputs.map d.relative) ++ "..."
      match Build.run d plan.build with
      | (.error e, d) => ⟨1, [opening], failureLines input (.file e), d⟩
      | (.ok (.failed file e warnings), d) =>
        let line := "✗ " ++ e.toSchemaError.diagnostic.format (some (d.relative file))
        ⟨1, [opening], warningLines d warnings ++ [line], d⟩
      | (.ok (.built _ written warnings), d) =>
        let lines := written.map fun file => "✓ Generated types: " ++ d.relative file
        ⟨0, opening :: lines ++ ["", "✨ Compilation complete!"], warningLines d warnings, d⟩

/-- The options of a watcher that the command line asks for. Its call counts outcomes, and does not
fail. -/
def watchOptions (args : WatchArgs) : Watch.WatchOptions :=
  ⟨args.input, args.outputDir, args.debounce.map Watch.delayOf, some fun _ => none⟩

/-- Lines that a watcher has logged, on the stream of ordinary output or on that of errors. -/
def logLines (log : List Watch.LogEntry) (ordinary : Bool) : List String :=
  (log.filter fun e => (e.channel = .log) = ordinary).map Watch.LogEntry.text

/-- The line in which `asdl-watch` takes leave. -/
def farewell (signal : String) (outcomes : List Watch.Outcome) : String :=
  "\n👋 " ++ signal ++ ": stopped after " ++ toString outcomes.length ++ " build(s), " ++
    toString (outcomes.filter (· ≠ .success)).length ++ " failed"

/-- End a simulation by a signal. -/
def interrupt (s : Watch.Simulation) (signal : String) : CommandResult :=
  let s := s.stop
  ⟨0, logLines s.world.log true ++ [farewell signal s.world.outcomes],
    logLines s.world.log false, s.world.disk⟩

/-- The command `asdl-watch`, which gets a signal right after its start. -/
def watch (d : Disk) (args : List String) (signal : String) : CommandResult :=
  match WatchArgs.ofWords args with
  | none => ⟨1, [], watchUsage, d⟩
  | some a =>
    let options := watchOptions a
    match (Watch.Simulation.ofOptions d options).start read with
    | none => ⟨1, [], ["✗ " ++ (Watch.Watcher.ofOptions 0 options).missingInput], d⟩
    | some s => interrupt s signal

end Command

end Schemata
