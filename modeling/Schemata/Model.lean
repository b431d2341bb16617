import Schemata.Number
import Schemata.Syntax

/-!
# Models

A model holds the types of the modules that were loaded into it. Types are told apart by their
`TypeKey`: the number of the module they come from, counted over all loads, and their qualified
name. A reference to a declared type is the key of that type, so two types of the same name from
different loads are never confused, and a definition can be read without the model it came from.

`Model.lookup` finds a type by a qualified name, `module.type`, or by a bare name, which means the
first type of that name in load order.
-/

namespace Schemata

/-- The types that need no declaration. -/
inductive Primitive where
  | string
  | int
  | bool
deriving DecidableEq, Repr, Inhabited

namespace Primitive

def name : Primitive → String
  | string => "string"
  | int => "int"
  | bool => "bool"

/-- All primitive types, in the order in which they are listed. -/
def all : List Primitive := [string, int, bool]

/-- The primitive type of a name. -/
def ofName? (name : String) : Option Primitive :=
  all.find? (·.name = name)

end Primitive

/-- Identity of a declared type. -/
structure TypeKey where
  serial : Nat
  module : String
  name : String
deriving DecidableEq, Repr, Inhabited

/-- Qualified name of a type. -/
def TypeKey.id (k : TypeKey) : String := k.module ++ "." ++ k.name

/-- What the type of a field is. -/
inductive TypeRef where
  | primitive (type : Primitive)
  | declared (key : TypeKey)
deriving DecidableEq, Repr, Inhabited

/-- Bare name of a referenced type. -/
def TypeRef.name : TypeRef → String
  | primitive p => p.name
  | declared k => k.name

/-- A field of a product type or of a constructor. Fields that a sum type's constructors share are
marked `shared`. -/
structure Field where
  name : String
  index : Nat
  type : TypeRef
  multiplicity : Multiplicity
  shared : Bool
  position : Position
deriving DecidableEq, Repr, Inhabited

/-- Type of a field with the mark of its multiplicity. -/
def Field.describe (f : Field) : String := f.type.name ++ f.multiplicity.mark

/-- A constructor of the sum type `owner`, with its own fields followed by the shared ones. -/
structure Constructor where
  owner : TypeKey
  name : String
  tag : Nat
  fields : List Field
  position : Position
deriving DecidableEq, Repr, Inhabited

/-- Whether a type, or a value, is a sum or a product. -/
inductive TypeKind where
  | sum
  | product
deriving DecidableEq, Repr, Inhabited

def TypeKind.name : TypeKind → String
  | sum => "sum"
  | product => "product"

/-- The parts of a resolved type. -/
inductive TypeShape where
  | product (fields : List Field)
  | sum (constructors : List Constructor) (attributes : List Field)
deriving DecidableEq, Repr, Inhabited

def TypeShape.kind : TypeShape → TypeKind
  | product _ => .product
  | sum _ _ => .sum

/-- A resolved type. -/
structure TypeDef where
  key : TypeKey
  position : Position
  shape : TypeShape
deriving DecidableEq, Repr, Inhabited

namespace TypeDef

def name (t : TypeDef) : String := t.key.name

def module (t : TypeDef) : String := t.key.module

/-- Qualified name of a type. -/
def id (t : TypeDef) : String := t.key.id

def kind (t : TypeDef) : TypeKind := t.shape.kind

/-- Constructors of a sum type; a product has none. -/
def constructors (t : TypeDef) : List Constructor :=
  match t.shape with
  | .product _ => []
  | .sum constructors _ => constructors

/-- Fields that all constructors of a sum type share; a product has none. -/
def attributes (t : TypeDef) : List Field :=
  match t.shape with
  | .product _ => []
  | .sum _ attributes => attributes

/-- Fields of a product type; a sum has none of its own. -/
def fields (t : TypeDef) : List Field :=
  match t.shape with
  | .product fields => fields
  | .sum _ _ => []

/-- Every field a value of the type can have, constructor by constructor. -/
def allFields (t : TypeDef) : List Field :=
  match t.shape with
  | .product fields => fields
  | .sum constructors _ => constructors.flatMap Constructor.fields

/-- Whether no constructor has a field, so that the type is an enumeration. -/
def simple (t : TypeDef) : Bool := t.constructors.all (·.fields.isEmpty)

end TypeDef

/-- A loaded module: its number over all loads, its name and its types in declaration order. -/
structure Module where
  serial : Nat
  name : String
  types : List TypeDef
deriving DecidableEq, Repr, Inhabited

/-- Loaded modules in load order and the depth limit for printing values. -/
structure Model where
  modules : List Module
  maxPrintDepth : Number
deriving DecidableEq, Repr, Inhabited

/-- The depth limit for printing where none is given. -/
def defaultMaxDepth : Number := .integral 256

/-- Why a name means nothing. -/
inductive ResolutionError where
  | moduleLoaded (name : String) (position : Position)
  | primitiveRedefined (module name : String) (position : Position)
  | unknownFieldType (name path : String) (position : Position) (suggestion : String)
  | unknownType (name : String) (available : List String)
  | unknownConstructor (type : TypeKey) (name : String) (available : List String)
deriving DecidableEq, Repr

namespace ResolutionError

def message : ResolutionError → String
  | moduleLoaded name _ => "Module \"" ++ name ++ "\" is already loaded"
  | primitiveRedefined _ name _ => "Type \"" ++ name ++ "\" redefines a primitive type"
  | unknownFieldType name _ _ _ => "Unknown type \"" ++ name ++ "\""
  | unknownType name _ => "Unknown type \"" ++ name ++ "\""
  | unknownConstructor type name _ =>
    "Type \"" ++ type.name ++ "\" has no constructor \"" ++ name ++ "\""

def path : ResolutionError → String
  | moduleLoaded name _ => name
  | primitiveRedefined module name _ => module ++ "." ++ name
  | unknownFieldType _ path _ _ => path
  | unknownType name _ => name
  | unknownConstructor type name _ => type.id ++ "." ++ name

def position? : ResolutionError → Option Position
  | moduleLoaded _ p => some p
  | primitiveRedefined _ _ p => some p
  | unknownFieldType _ _ p _ => some p
  | unknownType _ _ => none
  | unknownConstructor _ _ _ => none

def suggestion? : ResolutionError → Option String
  | moduleLoaded _ _ => none
  | primitiveRedefined _ name _ => some ("Choose a different name like \"" ++ name ++ "_t\"")
  | unknownFieldType _ _ _ suggestion => some suggestion
  | unknownType _ [] => some "No types are loaded"
  | unknownType _ names => some ("Available types: " ++ ", ".intercalate names)
  | unknownConstructor _ _ names => some ("Available constructors: " ++ ", ".intercalate names)

end ResolutionError

namespace Model

/-- The model without modules. -/
def empty (limit : Option Number) : Model := ⟨[], limit.getD defaultMaxDepth⟩

/-- A model of given modules. -/
def ofModules (modules : List Module) (limit : Option Number) : Model :=
  ⟨modules, limit.getD defaultMaxDepth⟩

/-- All types in load order. -/
def types (m : Model) : List TypeDef := m.modules.flatMap Module.types

/-- The first module of a name. -/
def getModule (m : Model) (name : String) : Option Module :=
  m.modules.find? (·.name = name)

/-- The type of a qualified name, the latest if there are several. -/
def byId (m : Model) (id : String) : Option TypeDef :=
  m.types.reverse.find? (·.id = id)

/-- The first type of a bare name. -/
def byName (m : Model) (name : String) : Option TypeDef :=
  m.types.find? (·.name = name)

/-- The type of a name; a dot makes it a qualified one. -/
def lookup (m : Model) (name : String) : Option TypeDef :=
  if '.' ∈ name.toList then m.byId name else m.byName name

/-- The bare names of all types, each where it first occurs. -/
def typeNames (m : Model) : List String := (m.types.map TypeDef.name).eraseDups

/-- The type of a name, or the error that there is none. -/
def getType (m : Model) (name : String) : Except ResolutionError TypeDef :=
  match m.lookup name with
  | some t => .ok t
  | none => .error (.unknownType name m.typeNames)

end Model

end Schemata
