import Schemata.Load
import Schemata.Value.Access
import Schemata.Value.Construct
import Schemata.Value.Print

/-!
# Errors

Every failure of loading, of the operations on values and of reading a configuration is one of the
errors collected here. Each has a code and can be reported as a diagnostic.
-/

namespace Schemata

/-- A configuration with problems. -/
structure ConfigError where
  diagnostics : List Diagnostic
deriving DecidableEq, Repr

namespace ConfigError

def message (e : ConfigError) : String :=
  "Configuration is invalid with " ++ toString e.diagnostics.length ++ " error(s)"

/-- Path of the first problem. -/
def path (e : ConfigError) : String :=
  match e.diagnostics with
  | [] => ""
  | d :: _ => d.path

end ConfigError

/-- Any failure. -/
inductive SchemaError where
  | lex (error : LexError)
  | parse (error : ParseError)
  | resolution (error : ResolutionError)
  | cycle (error : CycleError)
  | arity (error : ArityError)
  | mismatch (path message : String)
  | access (error : AccessError)
  | depth (error : DepthError)
  | config (error : ConfigError)
deriving DecidableEq, Repr

namespace SchemaError

/-- Short code of the kind of failure. -/
def code : SchemaError → String
  | lex _ => "LEX"
  | parse _ => "PARSE"
  | resolution _ => "RESOLUTION"
  | cycle _ => "CYCLE"
  | arity _ => "ARITY"
  | mismatch .. => "TYPE_MISMATCH"
  | access _ => "FIELD_ACCESS"
  | depth _ => "RECURSION_LIMIT"
  | config _ => "CONFIG"

def message : SchemaError → String
  | lex e => e.message
  | parse e => e.message
  | resolution e => e.message
  | cycle e => e.message
  | arity e => e.message
  | mismatch _ message => message
  | access e => e.message
  | depth e => e.message
  | config e => e.message

/-- Path of the thing that the failure is about. -/
def path : SchemaError → String
  | lex _ => ""
  | parse e => e.path
  | resolution e => e.path
  | cycle e => e.path
  | arity e => e.path
  | mismatch path _ => path
  | access e => e.path
  | depth e => e.place.text
  | config e => e.path

/-- Place in the source text, where the failure has one. -/
def position? : SchemaError → Option Position
  | lex e => some e.position
  | parse e => some e.position
  | resolution e => e.position?
  | cycle e => some e.position
  | _ => none

/-- What could be done instead. -/
def suggestion? : SchemaError → Option String
  | resolution e => e.suggestion?
  | cycle _ => some CycleError.suggestion
  | access e => e.suggestion?
  | _ => none

/-- A failure as a diagnostic. -/
def diagnostic (e : SchemaError) : Diagnostic :=
  ⟨.error, e.message, e.path, e.position?.map Position.line, e.position?.map Position.column,
    e.suggestion?⟩

end SchemaError

/-- A failed load as a failure. -/
def LoadError.toSchemaError : LoadError → SchemaError
  | lex e => .lex e
  | parse e => .parse e
  | resolution e => .resolution e
  | cycle e => .cycle e

/-- A report whose path is a text as a failure. -/
def Rejection.toSchemaError? (r : Rejection) : Option SchemaError :=
  r.path.text?.map fun path => .mismatch path r.message

/-- A failed construction as a failure, unless a violation has no report. -/
def ConstructError.toSchemaError? (s : Store) : ConstructError → Option SchemaError
  | resolution e => some (.resolution e)
  | arity e => some (.arity e)
  | mismatch e => (s.rejection? (.text e.place.root) e).bind Rejection.toSchemaError?

end Schemata
