import Schemata.Position

/-!
# Declaration trees

What a schema text says before any name in it is looked up: modules with the types they declare,
each node with the position of its first token. A sum's `attributes` are fields that all of its
constructors share.
-/

namespace Schemata

/-- How often a field's content occurs. -/
inductive Multiplicity where
  | single
  | optional
  | repeated
deriving DecidableEq, Repr, Inhabited

/-- Mark behind the type of a field. -/
def Multiplicity.mark : Multiplicity → String
  | single => ""
  | optional => "?"
  | repeated => "*"

/-- A field with the name of its type. -/
structure FieldDecl where
  name : String
  typeName : String
  multiplicity : Multiplicity
  position : Position
deriving DecidableEq, Repr, Inhabited

/-- A constructor with its own fields. -/
structure ConstructorDecl where
  name : String
  position : Position
  fields : List FieldDecl
deriving DecidableEq, Repr, Inhabited

/-- Right-hand side of a type declaration. -/
inductive TypeBody where
  | product (fields : List FieldDecl)
  | sum (constructors : List ConstructorDecl) (attributes : List FieldDecl)
deriving DecidableEq, Repr, Inhabited

/-- Declaration of a type. -/
structure TypeDecl where
  name : String
  position : Position
  body : TypeBody
deriving DecidableEq, Repr, Inhabited

/-- A module with its types in declaration order. -/
structure ModuleDecl where
  name : String
  position : Position
  types : List TypeDecl
deriving DecidableEq, Repr, Inhabited

/-- The modules of a schema text in order. -/
structure SchemaTree where
  modules : List ModuleDecl
deriving DecidableEq, Repr, Inhabited

end Schemata
