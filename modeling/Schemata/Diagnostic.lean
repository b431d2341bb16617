import Schemata.Position

/-!
# Diagnostics

A diagnostic is what tools report: a message with its severity, the path of the thing it is about,
and, where known, a place in the source and a suggestion. `Diagnostic.format` writes it in one line,
`where:line:column: message [path] (suggestion)`.
-/

namespace Schemata

/-- How serious a diagnostic is. -/
inductive Severity where
  | error
  | warning
  | info
  | other (name : String)
deriving DecidableEq, Repr, Inhabited

/-- Name of a severity in texts. -/
def Severity.name : Severity → String
  | error => "error"
  | warning => "warning"
  | info => "info"
  | other name => name

/-- A message about a path, with its place and a suggestion where there are any. -/
structure Diagnostic where
  severity : Severity
  message : String
  path : String
  line : Option Int
  column : Option Int
  suggestion : Option String
deriving DecidableEq, Repr, Inhabited

namespace Diagnostic

/-- An error about a path, without a place. -/
def error (path message : String) (suggestion : Option String) : Diagnostic :=
  ⟨.error, message, path, none, none, suggestion⟩

/-- A warning about a path, at a position. -/
def warning (path message : String) (position : Position) : Diagnostic :=
  ⟨.warning, message, path, some position.line, some position.column, none⟩

/-- Line and column behind a colon each; a column without a line is left out. -/
def placeText (d : Diagnostic) : String :=
  match d.line, d.column with
  | none, _ => ""
  | some line, none => ":" ++ toString line
  | some line, some column => ":" ++ toString line ++ ":" ++ toString column

/-- The location before the message: the source file if one is given, otherwise the path, followed
by line and column. -/
def location (d : Diagnostic) (source : Option String) : String :=
  source.getD d.path ++ d.placeText

/-- The severity in front of the message; errors have none. -/
def severityText (d : Diagnostic) : String :=
  match d.severity with
  | .error => ""
  | severity => severity.name ++ ": "

/-- The path in brackets, where a source file has taken its place in the location. -/
def pathText (d : Diagnostic) (source : Option String) : String :=
  if source.isSome && d.path ≠ "" then " [" ++ d.path ++ "]" else ""

/-- The suggestion in parentheses, unless it is empty. -/
def suggestionText (d : Diagnostic) : String :=
  match d.suggestion with
  | none | some "" => ""
  | some s => " (" ++ s ++ ")"

/-- A diagnostic in one line. -/
def format (d : Diagnostic) (source : Option String) : String :=
  let location := d.location source
  (if location = "" then "" else location ++ ": ") ++ d.severityText ++ d.message ++
    d.pathText source ++ d.suggestionText

end Diagnostic

end Schemata
