import Schemata.Model
import Schemata.Record
import Schemata.Text.Units

/-!
# Generated declarations

For each module a file of TypeScript declarations describes the plain view of its values: an
interface for each constructor, named `type__Constructor` and told apart by the property `_type`, a
union for each sum type with a table of its tags, and an interface for each product type. Types of
other modules are imported from the files of these modules.
-/

namespace Schemata.Declarations

/-- Type expression of a reference. -/
def typeText : TypeRef → String
  | .declared key => key.name
  | .primitive .string => "string"
  | .primitive .int => "number"
  | .primitive .bool => "boolean"

/-- Property of a field. -/
def fieldLine (f : Field) : String :=
  let suffix := match f.multiplicity with
    | .repeated => "[]"
    | .optional => " | null"
    | .single => ""
  "  readonly " ++ f.name ++ ": " ++ typeText f.type ++ suffix ++ ";"

/-- Name of the interface of a constructor. -/
def interfaceName (t : TypeDef) (c : Constructor) : String := t.name ++ "__" ++ c.name

/-- Interface of a constructor. -/
def constructorLines (t : TypeDef) (c : Constructor) : List String :=
  ["export interface " ++ interfaceName t c ++ " \x7b",
    "  readonly _type: \"" ++ c.name ++ "\";"] ++
  c.fields.map fieldLine ++ ["\x7d", ""]

/-- Members of a union; the last one ends the declaration. -/
def memberLines : List String → List String
  | [] => []
  | [m] => ["  | " ++ m ++ ";"]
  | m :: ms => ("  | " ++ m) :: memberLines ms

/-- Declarations of a sum type. -/
def sumLines (t : TypeDef) (constructors : List Constructor) : List String :=
  constructors.flatMap (constructorLines t) ++
  ["export type " ++ t.name ++ " ="] ++
  memberLines (constructors.map (interfaceName t)) ++
  ["", "export const " ++ t.name ++ "_e = \x7b"] ++
  constructors.map (fun c => "  " ++ c.name ++ ": " ++ toString c.tag ++ ",") ++
  ["\x7d as const;"]

/-- Declaration of a product type. -/
def productLines (t : TypeDef) (fields : List Field) : List String :=
  ["export interface " ++ t.name ++ " \x7b"] ++ fields.map fieldLine ++ ["\x7d"]

/-- Declarations of a type. -/
def typeLines (t : TypeDef) : List String :=
  match t.shape with
  | .product fields => productLines t fields
  | .sum constructors _ => sumLines t constructors

/-- Types of other modules that fields of the module refer to, in field order. -/
def foreignTypes (m : Module) : List TypeKey :=
  (m.types.flatMap TypeDef.allFields).filterMap fun f =>
    match f.type with
    | .declared key => if key.module = m.name then none else some key
    | .primitive _ => none

/-- The foreign modules in the order of their first use, each with the types used of it in
ascending order. -/
def imports (m : Module) : List (String × List String) :=
  let foreign := foreignTypes m
  (foreign.map TypeKey.module).eraseDups.map fun module =>
    (module, Text.sort ((foreign.filter (·.module = module)).map TypeKey.name).eraseDups)

/-- Import of types from the file of a module. -/
def importLine (entry : String × List String) : String :=
  "import type \x7b " ++ ", ".intercalate entry.2 ++ " \x7d from \"./" ++ entry.1 ++ ".types.js\";"

/-- Lines of the declaration file of a module. -/
def moduleLines (m : Module) : List String :=
  let imported := (imports m).map importLine
  ["/**", " * Types for schema module \"" ++ m.name ++ "\"",
    " * Generated by asdl-compile. Do not edit by hand.", " */", ""] ++
  (if imported.isEmpty then [] else imported ++ [""]) ++
  m.types.flatMap fun t => typeLines t ++ [""]

/-- Text of the declaration file of a module. -/
def moduleText (m : Module) : String := "\n".intercalate (moduleLines m)

/-- Declaration texts of modules by module name. The reserved name `__proto__` has no entry. -/
def texts (modules : List Module) : Record String :=
  .ofList ((modules.filter (·.name ≠ "__proto__")).map fun m => (m.name, moduleText m))

end Schemata.Declarations
