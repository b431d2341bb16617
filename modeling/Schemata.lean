import Schemata.Number.Shortest
import Schemata.Number.Numeral
import Schemata.Diagnostic
import Schemata.Token.Scan
import Schemata.Syntax.Parser
import Schemata.Load
import Schemata.Declarations
import Schemata.Value.Construct
import Schemata.Value.Access
import Schemata.Value.Plain
import Schemata.Value.Print
import Schemata.Error
import Schemata.Yaml.Document
import Schemata.Build
import Schemata.Watch.Args
import Schemata.Main
import Schemata.Proofs.Outcome
import Schemata.Proofs.Token.Words
import Schemata.Proofs.Token.Scanning
import Schemata.Proofs.Token.Covering
import Schemata.Proofs.Syntax.Grammar
import Schemata.Proofs.Syntax.Reads
import Schemata.Proofs.Syntax.Runs
import Schemata.Proofs.Syntax.Parsing
import Schemata.Proofs.Syntax.Fields
import Schemata.Proofs.Syntax.Renaming
import Schemata.Proofs.Syntax.Prefixes
import Schemata.Proofs.Model.Resolution
import Schemata.Proofs.Value.Conformance
import Schemata.Proofs.Value.Supplying
import Schemata.Proofs.Value.Nesting
import Schemata.Proofs.Value.Revisions
import Schemata.Proofs.Model.Lookup
import Schemata.Proofs.Session
import Schemata.Proofs.Session.Trust
import Schemata.Proofs.Value.Evolution
import Schemata.Proofs.Session.Sealing
import Schemata.Proofs.Model.Inhabited
import Schemata.Proofs.Model.Definitions
import Schemata.Proofs.Model.Cycles
import Schemata.Proofs.Model.Renumbering
import Schemata.Proofs.Model.Chain
import Schemata.Proofs.Model.Naming
import Schemata.Proofs.Model.Extension
import Schemata.Proofs.Model.Stepwise
import Schemata.Proofs.Value.Reading
import Schemata.Proofs.Session.Texts
import Schemata.Proofs.Session.Permanence
import Schemata.Proofs.Text.Pieces
import Schemata.Proofs.Session.Readability
import Schemata.Proofs.Session.Growth
import Schemata.Proofs.Session.Collision
import Schemata.Proofs.Session.Identification
import Schemata.Proofs.Declarations.Reading
import Schemata.Proofs.Declarations.Scope
import Schemata.Proofs.Build
import Schemata.Proofs.Build.Atomicity
import Schemata.Proofs.Session.Views
import Schemata.Proofs.Session.Agreement
import Schemata.Proofs.Session.Appearance
import Schemata.Proofs.Session.Rebuilding
import Schemata.Proofs.Watch.Compiling
import Schemata.Proofs.Watch.Debouncing
import Schemata.Proofs.Watch.Resources
import Schemata.Proofs.Watch.Arguments
import Schemata.Proofs.Config.Problems
import Schemata.Proofs.Model.Warnings
import Schemata.Proofs.Declarations.Names
