import Schemata.Config
import Schemata.Declarations

/-!
# Builds

A build loads schema files in order, each on top of those before it, and writes the declarations of
every module into a file of the output directory. Nothing is written unless all files load. A plan
says what to build for an input, which is a schema file or, with the extension `yaml` or `yml`, a
configuration.
-/

namespace Schemata

/-- A failure of working with files: a file cannot be used, a schema or configuration is wrong, or
something from outside that was called fails. -/
inductive Failure where
  | file (error : FileError)
  | schema (error : SchemaError)
  | raised (message : String)
deriving DecidableEq, Repr

namespace Failure

def message : Failure → String
  | file e => e.message
  | schema e => e.message
  | raised message => message

end Failure

/-- What to build. -/
structure BuildOptions where
  inputs : List String
  outputDir : String
  maxPrintDepth : Option Number
deriving DecidableEq, Repr

/-- A diagnostic about a file. -/
structure FileDiagnostic where
  file : String
  diagnostic : Diagnostic
deriving DecidableEq, Repr

/-- A generated file. -/
structure Output where
  path : String
  content : String
deriving DecidableEq, Repr

/-- A finished build: all files were loaded and written, or a file did not load. -/
inductive BuildResult where
  | built (model : Model) (written : List String) (warnings : List FileDiagnostic)
  | failed (file : String) (error : LoadError) (warnings : List FileDiagnostic)
deriving DecidableEq, Repr

namespace Build

/-- What was gathered from the input files so far. -/
structure Gathered where
  model : Model
  serial : Nat
  outputs : List Output
  warnings : List FileDiagnostic
deriving DecidableEq, Repr

/-- Why gathering stopped at a file. -/
inductive Stop where
  | unreadable (error : FileError)
  | unloadable (file : String) (error : LoadError) (warnings : List FileDiagnostic)
deriving DecidableEq, Repr

/-- The file for the declarations of a module. -/
def outputPath (directory : String) (m : Module) : String :=
  FilePath.join directory (m.name ++ ".types.ts")

/-- Load one file on top of what was gathered. -/
def gatherFile (d : Disk) (directory : String) (g : Gathered) (file : String) :
    Except Stop Gathered :=
  match d.read file with
  | .error e => .error (.unreadable e)
  | .ok source =>
    match g.model.load g.serial none source with
    | .error e => .error (.unloadable file e g.warnings)
    | .ok loaded =>
      .ok {
        model := loaded.model
        serial := g.serial + loaded.modules.length
        outputs := g.outputs ++
          loaded.modules.map fun m => ⟨outputPath directory m, Declarations.moduleText m⟩
        warnings := g.warnings ++ loaded.warnings.map fun w => ⟨file, w⟩ }

/-- Load all input files. -/
def gather (d : Disk) (options : BuildOptions) : Except Stop Gathered :=
  options.inputs.foldlM (gatherFile d options.outputDir)
    ⟨Model.empty options.maxPrintDepth, 0, [], []⟩

/-- Write files one after the other, up to the first that cannot be written. -/
def writeAll : Disk → List Output → Except FileError Unit × Disk
  | d, [] => (.ok (), d)
  | d, o :: os =>
    match d.write o.path o.content with
    | .error e => (.error e, d)
    | .ok d' => writeAll d' os

/-- Build, giving the result or the error of a file operation, and the disk afterwards. -/
def run (d : Disk) (options : BuildOptions) : Except FileError BuildResult × Disk :=
  match gather d options with
  | .error (.unreadable e) => (.error e, d)
  | .error (.unloadable file e warnings) => (.ok (.failed file e warnings), d)
  | .ok g =>
    match d.makeDirectories options.outputDir with
    | .error e => (.error e, d)
    | .ok d =>
      match writeAll d g.outputs with
      | (.error e, d) => (.error e, d)
      | (.ok (), d) => (.ok (.built g.model (g.outputs.map Output.path) g.warnings), d)

end Build

/-- What to build for an input, the files whose change calls for another build, and how long to wait
for further changes. -/
structure BuildPlan where
  build : BuildOptions
  watchFiles : List String
  debounce : Number
deriving DecidableEq, Repr

namespace BuildPlan

variable (read : Yaml.Reader)

/-- Whether a path is that of a configuration. -/
def isConfigPath (path : String) : Bool :=
  let lower := (path.toList.map Char.toLower).reverse
  ".yml".toList.reverse.isPrefixOf lower || ".yaml".toList.reverse.isPrefixOf lower

/-- Read a configuration file. -/
def loadConfig (d : Disk) (path : String) : Except Failure Config :=
  match d.read path with
  | .error e => .error (.file e)
  | .ok text =>
    match Config.parse read d.currentPath (FilePath.parent (d.resolve path)) text with
    | .error (.invalid e) => .error (.schema (.config e))
    | .error (.raised message) => .error (.raised message)
    | .ok config => .ok config

/-- The plan for a configuration. -/
def ofConfig (d : Disk) (input : String) (outputDir : Option String) (config : Config) :
    BuildPlan :=
  let directory := match outputDir with
    | none | some "" => config.outputDir
    | some path => d.resolve path
  { build := ⟨config.schemas, directory, some config.maxDepth⟩
    watchFiles := d.resolve input :: config.schemas
    debounce := config.debounce }

/-- The plan for a schema file. -/
def ofSchema (d : Disk) (input : String) (outputDir fallback : Option String) : BuildPlan :=
  let directory := (outputDir.or fallback).getD (FilePath.parent input)
  { build := ⟨[d.resolve input], d.resolve directory, none⟩
    watchFiles := [d.resolve input]
    debounce := Config.defaultDebounce }

/-- The plan for an input. Without an output directory a configuration gives its own, and a schema
file takes `fallback` or else its own directory. -/
def make (d : Disk) (input : String) (outputDir fallback : Option String) :
    Except Failure BuildPlan :=
  if isConfigPath input then (loadConfig read d input).map (ofConfig d input outputDir)
  else .ok (ofSchema d input outputDir fallback)

end BuildPlan

end Schemata
