import Schemata.Resolve
import Schemata.Syntax.Parser
import Schemata.Token.Scan

/-!
# Loading schemas

Loading reads a schema text, resolves its tree over the modules of a base model and adds the new
modules behind them. A failed load has no effect. New modules are numbered from `serial` on; a
caller that keeps several models gives every load a number not used before.
-/

namespace Schemata

/-- Why a schema text cannot be loaded. -/
inductive LoadError where
  | lex (error : LexError)
  | parse (error : ParseError)
  | resolution (error : ResolutionError)
  | cycle (error : CycleError)
deriving DecidableEq, Repr

/-- Result of a load: the extended model, the new modules only, and warnings. -/
structure Loaded where
  model : Model
  modules : List Module
  warnings : List Diagnostic
deriving DecidableEq, Repr

/-- The declaration tree of a schema text. -/
def SchemaTree.parse (source : String) : Except LoadError SchemaTree :=
  match Token.tokenize source with
  | .error e => .error (.lex e)
  | .ok tokens =>
    match SchemaTree.ofTokens tokens with
    | .error e => .error (.parse e)
    | .ok tree => .ok tree

namespace Model

/-- Load a tree on top of a model. Without a depth limit of its own the result has that of the
base. -/
def loadTree (base : Model) (serial : Nat) (limit : Option Number) (tree : SchemaTree) :
    Except LoadError Loaded :=
  match tree.resolve serial base.modules with
  | .error (.resolution e) => .error (.resolution e)
  | .error (.cycle e) => .error (.cycle e)
  | .ok ⟨modules, warnings⟩ =>
    .ok ⟨⟨base.modules ++ modules, limit.getD base.maxPrintDepth⟩, modules, warnings⟩

/-- Load a schema text on top of a model. -/
def load (base : Model) (serial : Nat) (limit : Option Number) (source : String) :
    Except LoadError Loaded := do
  base.loadTree serial limit (← SchemaTree.parse source)

end Model

end Schemata
