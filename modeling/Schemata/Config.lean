import Schemata.Error
import Schemata.File.Disk
import Schemata.Yaml

/-!
# Project configurations

A configuration names schema files, which are loaded in order, a directory for the generated files,
the depth limit for printing and the waiting time of the watcher:

    schemas:
      - schemas/arith.asdl
    outputDir: generated
    printer:
      maxDepth: 256
    watch:
      debounce: 300

`Config.ofYaml` makes it from the data of a document, `Config.parse` from a text by any reader of
documents. Everything that is wrong with the data is reported, and there is a configuration only if
nothing is.
-/

namespace Schemata

/-- A project configuration with absolute paths. -/
structure Config where
  schemas : List String
  outputDir : String
  maxDepth : Number
  debounce : Number
deriving DecidableEq, Repr

/-- Why there is no configuration: it has problems, or the reader of its text fails on its own. -/
inductive ConfigFault where
  | invalid (error : ConfigError)
  | raised (message : String)
deriving DecidableEq, Repr

namespace Config

def defaultOutputDir : String := "generated"

def defaultDebounce : Number := .integral 300

/-- The keys of a configuration. -/
def knownKeys : List String := ["schemas", "outputDir", "printer", "watch"]

/-- A setting: what it is and what is wrong with it. Where something is wrong the value is only a
stand-in. -/
structure Setting (α : Type) where
  value : α
  problems : List Diagnostic

/-- Problems of the keys that a configuration does not have. -/
def unknownKeys (entries : List (String × Yaml)) : List Diagnostic :=
  (entries.filter (·.1 ∉ knownKeys)).map fun e =>
    .error e.1 ("Unknown configuration key \"" ++ e.1 ++ "\"")
      (some ("Use one of: " ++ ", ".intercalate knownKeys))

/-- The path of a schema entry, or what is wrong with it. -/
def schemaEntry (base : String) (index : Nat) : Yaml → Setting (List String)
  | .text path =>
    if path = "" then
      ⟨[], [.error ("schemas[" ++ toString index ++ "]") "Schema entry must be a file path" none]⟩
    else ⟨[FilePath.resolve base path], []⟩
  | _ => ⟨[], [.error ("schemas[" ++ toString index ++ "]") "Schema entry must be a file path" none]⟩

/-- The paths of schema entries, the first of which has the given index. -/
def schemaEntries (base : String) : Nat → List Yaml → Setting (List String)
  | _, [] => ⟨[], []⟩
  | index, d :: ds =>
    let first := schemaEntry base index d
    let rest := schemaEntries base (index + 1) ds
    ⟨first.value ++ rest.value, first.problems ++ rest.problems⟩

/-- The schema files. -/
def schemasSetting (base : String) (entries : List (String × Yaml)) : Setting (List String) :=
  match Yaml.find? entries "schemas" with
  | some (.list (d :: ds)) => schemaEntries base 0 (d :: ds)
  | _ =>
    ⟨[], [.error "schemas" "At least one schema file is required"
      (some "Add e.g. \"schemas: [schema.asdl]\"")]⟩

/-- The directory for the generated files. -/
def outputSetting (base : String) (entries : List (String × Yaml)) : Setting String :=
  let invalid : Setting String :=
    ⟨"", [.error "outputDir" "outputDir must be a directory path" none]⟩
  match Yaml.find? entries "outputDir" with
  | none => ⟨FilePath.resolve base defaultOutputDir, []⟩
  | some (.text path) => if path = "" then invalid else ⟨FilePath.resolve base path, []⟩
  | some _ => invalid

/-- Whether a number is an integer not below a least one. -/
def isIntegerFrom (least : Nat) (x : Number) : Bool :=
  match x.toInt? with
  | some n => (least : Int) ≤ n
  | none => false

/-- A number in a section that may be missing or null. -/
def numberSetting (sectionName key : String) (fallback : Number) (least : Nat)
    (entries : List (String × Yaml)) : Setting Number :=
  match Yaml.find? entries sectionName with
  | none | some .null => ⟨fallback, []⟩
  | some (.mapping settings) =>
    let path := sectionName ++ "." ++ key
    let invalid : Setting Number :=
      ⟨fallback, [.error path (path ++ " must be an integer >= " ++ toString least) none]⟩
    match Yaml.find? settings key with
    | none => ⟨fallback, []⟩
    | some (.number x) => if isIntegerFrom least x then ⟨x, []⟩ else invalid
    | some _ => invalid
  | some _ => ⟨fallback, [.error sectionName (sectionName ++ " must be a mapping") none]⟩

/-- The configuration that data describe; paths in it start at the absolute path `base`. -/
def ofYaml (base : String) (d : Yaml) : Except ConfigError Config :=
  match d with
  | .mapping entries =>
    let schemas := schemasSetting base entries
    let output := outputSetting base entries
    let depth := numberSetting "printer" "maxDepth" defaultMaxDepth 1 entries
    let debounce := numberSetting "watch" "debounce" defaultDebounce 0 entries
    let problems := unknownKeys entries ++ schemas.problems ++ output.problems ++
      depth.problems ++ debounce.problems
    if problems.isEmpty then .ok ⟨schemas.value, output.value, depth.value, debounce.value⟩
    else .error ⟨problems⟩
  | _ => .error ⟨[.error "" "Configuration must be a mapping" none]⟩

/-- The problem of a text that is no YAML document; of the reason the first line is told. -/
def malformedText (reason : String) (place : Option Position) : Diagnostic :=
  ⟨.error, "Invalid YAML: " ++ (reason.splitOn "\n").headD "", "", place.map Position.line,
    place.map Position.column, none⟩

/-- The configuration of a text. Paths in it start at the directory `base`, which itself starts at
the working directory `current`. -/
def parse (read : Yaml.Reader) (current base text : String) : Except ConfigFault Config :=
  match read text with
  | .error (.malformed reason place) => .error (.invalid ⟨[malformedText reason place]⟩)
  | .error (.raised message) => .error (.raised message)
  | .ok d => (ofYaml (FilePath.resolve current base) d).mapError .invalid

end Config

end Schemata
