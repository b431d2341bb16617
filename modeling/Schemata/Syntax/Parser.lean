import Schemata.Syntax
import Schemata.Token

/-!
# Parsing tokens into a declaration tree

The grammar, over tokens:

    schema   := module* end
    module   := "module" name "{" type* "}"
    type     := name "=" ( fields | sum )
    sum      := ctor ("|" ctor)* [ "attributes" fields ]
    ctor     := name [ fields ]
    fields   := "(" [ field ("," field)* ] ")"
    field    := name [ "*" | "?" ] name

The parser is an automaton: a state is a place in the grammar together with all that was read of the
declarations around it, and `State.step` reads one token. A token that cannot follow is an error at
that token. Names are checked as soon as a declaration is complete: fields of one list, constructors
of one sum, types of one module and modules of one text have distinct names, and no attribute is
named like a field of a constructor it is added to.
-/

namespace Schemata

/-- What can follow at a place where a token does not fit. -/
inductive Expectation where
  | moduleDeclaration
  | moduleName
  | moduleBrace
  | typeName
  | equalsAfter (type : String)
  | constructorName
  | openParen
  | fieldType
  | fieldName
  | fieldSeparator
deriving DecidableEq, Repr

/-- Wording of an expectation. -/
def Expectation.text : Expectation → String
  | moduleDeclaration => "a module declaration"
  | moduleName => "a module name"
  | moduleBrace => "\"\x7b\" after module name"
  | typeName => "a type name"
  | equalsAfter type => "\"=\" after type name \"" ++ type ++ "\""
  | constructorName => "a constructor name"
  | openParen => "\"(\""
  | fieldType => "a field type"
  | fieldName => "a field name"
  | fieldSeparator => "\",\" or \")\" in field list"

/-- Why a token sequence is no schema. Paths are dotted names from the module inwards. -/
inductive ParseError where
  | expected (what : Expectation) (found : Token)
  | duplicateModule (name : String) (position : Position)
  | duplicateType (module name : String) (position : Position)
  | duplicateConstructor (module type name : String) (position : Position)
  | duplicateField (owner name : String) (position : Position)
  | clashingAttribute (module type constructor name : String) (position : Position)
deriving DecidableEq, Repr

namespace ParseError

def message : ParseError → String
  | expected what found =>
    let seen := match found.kind with
      | .endOfInput => "end of input"
      | _ => "\"" ++ found.text ++ "\""
    "Expected " ++ what.text ++ ", found " ++ seen
  | duplicateModule name _ => "Duplicate module \"" ++ name ++ "\""
  | duplicateType module name _ =>
    "Duplicate type \"" ++ name ++ "\" in module \"" ++ module ++ "\""
  | duplicateConstructor _ type name _ =>
    "Duplicate constructor \"" ++ name ++ "\" in type \"" ++ type ++ "\""
  | duplicateField _ name _ => "Duplicate field \"" ++ name ++ "\""
  | clashingAttribute _ _ constructor name _ =>
    "Attribute \"" ++ name ++ "\" duplicates a field of constructor \"" ++ constructor ++ "\""

def path : ParseError → String
  | expected _ _ => ""
  | duplicateModule name _ => name
  | duplicateType module name _ => module ++ "." ++ name
  | duplicateConstructor module type name _ => module ++ "." ++ type ++ "." ++ name
  | duplicateField owner name _ => owner ++ "." ++ name
  | clashingAttribute module type constructor name _ =>
    module ++ "." ++ type ++ "." ++ constructor ++ "." ++ name

def position : ParseError → Position
  | expected _ found => found.position
  | duplicateModule _ p => p
  | duplicateType _ _ p => p
  | duplicateConstructor _ _ _ p => p
  | duplicateField _ _ p => p
  | clashingAttribute _ _ _ _ p => p

end ParseError

namespace Parser

/-- A module whose closing brace is still to come, after the complete modules before it. -/
structure OpenModule where
  before : List ModuleDecl
  name : String
  position : Position
  types : List TypeDecl
deriving DecidableEq, Repr

/-- A type whose right-hand side is being read. -/
structure OpenType where
  module : OpenModule
  name : String
  position : Position
deriving DecidableEq, Repr

/-- Dotted name of a type that is being read. -/
def OpenType.path (t : OpenType) : String := t.module.name ++ "." ++ t.name

/-- What the field list that is being read belongs to. -/
inductive FieldOwner where
  | product (type : OpenType)
  | constructor (type : OpenType) (before : List ConstructorDecl) (name : String)
      (position : Position)
  | attributes (type : OpenType) (constructors : List ConstructorDecl)
deriving DecidableEq, Repr

/-- Dotted name of the owner; attributes count to the type. -/
def FieldOwner.path : FieldOwner → String
  | product type => type.path
  | constructor type _ name _ => type.path ++ "." ++ name
  | attributes type _ => type.path

/-- Place inside a field list: at its beginning, after a comma, after a field's type, after the
type's mark, or after a field. -/
inductive FieldStage where
  | opened
  | separated
  | typed (typeName : Token)
  | marked (typeName : Token) (multiplicity : Multiplicity)
  | complete
deriving DecidableEq, Repr

/-- Place in the grammar, with all that was read around it. -/
inductive State where
  | modules (done : List ModuleDecl)
  | moduleKeyword (before : List ModuleDecl) (position : Position)
  | moduleNamed (before : List ModuleDecl) (name : String) (position : Position)
  | types (module : OpenModule)
  | typeNamed (type : OpenType)
  | typeEquals (type : OpenType)
  | afterBar (type : OpenType) (before : List ConstructorDecl)
  | constructorNamed (type : OpenType) (before : List ConstructorDecl) (name : String)
      (position : Position)
  | constructors (type : OpenType) (done : List ConstructorDecl)
  | attributesKeyword (type : OpenType) (constructors : List ConstructorDecl)
  | fields (owner : FieldOwner) (done : List FieldDecl) (stage : FieldStage)
  | finished (modules : List ModuleDecl)
deriving DecidableEq, Repr

/-- Close a module: its name must be new among the modules before it. -/
def closeModule (m : OpenModule) : Except ParseError State :=
  if m.name ∈ m.before.map ModuleDecl.name then .error (.duplicateModule m.name m.position)
  else .ok (.modules (m.before ++ [⟨m.name, m.position, m.types⟩]))

/-- Close a type: its name must be new in the module. -/
def closeType (t : OpenType) (body : TypeBody) : Except ParseError OpenModule :=
  if t.name ∈ t.module.types.map TypeDecl.name then
    .error (.duplicateType t.module.name t.name t.position)
  else .ok { t.module with types := t.module.types ++ [⟨t.name, t.position, body⟩] }

/-- Close a constructor: its name must be new in the type. -/
def closeConstructor (t : OpenType) (before : List ConstructorDecl) (c : ConstructorDecl) :
    Except ParseError (List ConstructorDecl) :=
  if c.name ∈ before.map ConstructorDecl.name then
    .error (.duplicateConstructor t.module.name t.name c.name c.position)
  else .ok (before ++ [c])

/-- The first constructor with a field named like an attribute, and the first such attribute. -/
def clash? (constructors : List ConstructorDecl) (attributes : List FieldDecl) :
    Option (ConstructorDecl × FieldDecl) :=
  constructors.findSome? fun c =>
    (attributes.find? fun a => a.name ∈ c.fields.map FieldDecl.name).map fun a => (c, a)

/-- Close a field list. -/
def closeFields (owner : FieldOwner) (fields : List FieldDecl) : Except ParseError State :=
  match owner with
  | .product t => do
    pure (.types (← closeType t (.product fields)))
  | .constructor t before name position => do
    pure (.constructors t (← closeConstructor t before ⟨name, position, fields⟩))
  | .attributes t constructors =>
    match clash? constructors fields with
    | some (c, a) => .error (.clashingAttribute t.module.name t.name c.name a.name a.position)
    | none => do
      pure (.types (← closeType t (.sum constructors fields)))

/-- Add a field to a list: its name must be new in the list. -/
def addField (owner : FieldOwner) (done : List FieldDecl) (typeName : Token)
    (multiplicity : Multiplicity) (name : Token) : Except ParseError State :=
  if name.text ∈ done.map FieldDecl.name then
    .error (.duplicateField owner.path name.text typeName.position)
  else
    .ok (.fields owner (done ++ [⟨name.text, typeName.text, multiplicity, typeName.position⟩])
      .complete)

/-- Read a token where types of a module are declared. -/
def stepTypes (m : OpenModule) (t : Token) : Except ParseError State :=
  match t.kind with
  | .closeBrace => closeModule m
  | .name => .ok (.typeNamed ⟨m, t.text, t.position⟩)
  | _ => .error (.expected .typeName t)

/-- Read a token after a complete constructor. Any token but a bar or the attributes keyword ends
the type and is read again as part of the module. -/
def stepConstructors (type : OpenType) (done : List ConstructorDecl) (t : Token) :
    Except ParseError State :=
  match t.kind with
  | .bar => .ok (.afterBar type done)
  | .attributes => .ok (.attributesKeyword type done)
  | _ => do stepTypes (← closeType type (.sum done [])) t

/-- Read a token inside a field list. -/
def stepFields (owner : FieldOwner) (done : List FieldDecl) (stage : FieldStage) (t : Token) :
    Except ParseError State :=
  match stage, t.kind with
  | .opened, .closeParen => closeFields owner done
  | .opened, .name | .separated, .name => .ok (.fields owner done (.typed t))
  | .opened, _ | .separated, _ => .error (.expected .fieldType t)
  | .typed typeName, .star => .ok (.fields owner done (.marked typeName .repeated))
  | .typed typeName, .question => .ok (.fields owner done (.marked typeName .optional))
  | .typed typeName, .name => addField owner done typeName .single t
  | .marked typeName multiplicity, .name => addField owner done typeName multiplicity t
  | .typed _, _ | .marked _ _, _ => .error (.expected .fieldName t)
  | .complete, .comma => .ok (.fields owner done .separated)
  | .complete, .closeParen => closeFields owner done
  | .complete, _ => .error (.expected .fieldSeparator t)

/-- Read one token. -/
def State.step (s : State) (t : Token) : Except ParseError State :=
  match s with
  | .modules done =>
    match t.kind with
    | .module => .ok (.moduleKeyword done t.position)
    | .endOfInput => .ok (.finished done)
    | _ => .error (.expected .moduleDeclaration t)
  | .moduleKeyword before position =>
    match t.kind with
    | .name => .ok (.moduleNamed before t.text position)
    | _ => .error (.expected .moduleName t)
  | .moduleNamed before name position =>
    match t.kind with
    | .openBrace => .ok (.types ⟨before, name, position, []⟩)
    | _ => .error (.expected .moduleBrace t)
  | .types m => stepTypes m t
  | .typeNamed type =>
    match t.kind with
    | .equals => .ok (.typeEquals type)
    | _ => .error (.expected (.equalsAfter type.name) t)
  | .typeEquals type =>
    match t.kind with
    | .openParen => .ok (.fields (.product type) [] .opened)
    | .name => .ok (.constructorNamed type [] t.text t.position)
    | _ => .error (.expected .constructorName t)
  | .afterBar type before =>
    match t.kind with
    | .name => .ok (.constructorNamed type before t.text t.position)
    | _ => .error (.expected .constructorName t)
  | .constructorNamed type before name position =>
    match t.kind with
    | .openParen => .ok (.fields (.constructor type before name position) [] .opened)
    | _ => do
      stepConstructors type (← closeConstructor type before ⟨name, position, []⟩) t
  | .constructors type done => stepConstructors type done t
  | .attributesKeyword type done =>
    match t.kind with
    | .openParen => .ok (.fields (.attributes type done) [] .opened)
    | _ => .error (.expected .openParen t)
  | .fields owner done stage => stepFields owner done stage t
  | .finished done => .ok (.finished done)

/-- The tree of a state in which the end of the input was read. A token list without an end is taken
to end after its last token. -/
def State.result (s : State) : Except ParseError SchemaTree :=
  match s with
  | .finished done => .ok ⟨done⟩
  | s => do
    match ← s.step (Token.endOfInput .start) with
    | .finished done => .ok ⟨done⟩
    | _ => .error (.expected .moduleDeclaration (Token.endOfInput .start))

end Parser

/-- The declaration tree that a token sequence spells. -/
def SchemaTree.ofTokens (tokens : List Token) : Except ParseError SchemaTree := do
  (← tokens.foldlM Parser.State.step (.modules [])).result

end Schemata
