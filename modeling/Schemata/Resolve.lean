import Schemata.Diagnostic
import Schemata.Representable
import Schemata.Text.Lower

/-!
# Resolving declaration trees

Resolution gives every declared type its definition. The type name of a field means the primitive
type of that name, otherwise the type declared in the field's own module, otherwise that of the
first earlier module of the same tree, otherwise that of the first base module that declares it.

Constructors get tags in declaration order and fields their index; the attributes of a sum are added
behind the own fields of each constructor. A type declared twice in a module is defined by its last
declaration. Loading warns of types that shadow an earlier one and of constructors that do not
begin with a capital letter.
-/

namespace Schemata

/-- Why a tree cannot be resolved. -/
inductive ResolveError where
  | resolution (error : ResolutionError)
  | cycle (error : CycleError)
deriving DecidableEq, Repr

/-- Modules made from a tree, with the warnings of making them. -/
structure Resolved where
  modules : List Module
  warnings : List Diagnostic
deriving DecidableEq, Repr

namespace Resolve

/-- The types that a module declares, in the order in which their names first occur. -/
abbrev Scope := List TypeKey

/-- The type of a name in a scope. -/
def Scope.find (scope : Scope) (name : String) : Option TypeKey :=
  scope.find? (·.name = name)

/-- The scope of a module that is being resolved. -/
def declaredScope (serial : Nat) (m : ModuleDecl) : Scope :=
  ((m.types.map TypeDecl.name).eraseDups).map fun name => ⟨serial, m.name, name⟩

/-- The scope of a loaded module. -/
def loadedScope (m : Module) : Scope := (m.types.map TypeDef.key).eraseDups

/-- The first type of a name in a list of scopes. -/
def find (scopes : List Scope) (name : String) : Option TypeKey :=
  scopes.findSome? (Scope.find · name)

/-- What to write instead of an unknown type name: the first known name that begins like it or that
it begins with, letter case aside, or else any of the known names. -/
def suggest (scopes : List Scope) (name : String) : String :=
  let names := (scopes.flatMap (·.map TypeKey.name) ++ Primitive.all.map Primitive.name).eraseDups
  let lower := Text.lower name.toList
  let similar := names.find? fun known =>
    lower.isPrefixOf (Text.lower known.toList) || (Text.lower known.toList).isPrefixOf lower
  match similar with
  | some known => "Did you mean \"" ++ known ++ "\"?"
  | none => "Available types: " ++ ", ".intercalate names

/-- The type that a type name means; `path` and `position` are those of the field. -/
def typeRef (scopes : List Scope) (name path : String) (position : Position) :
    Except ResolutionError TypeRef :=
  match Primitive.ofName? name with
  | some p => .ok (.primitive p)
  | none =>
    match find scopes name with
    | some key => .ok (.declared key)
    | none => .error (.unknownFieldType name path position (suggest scopes name))

/-- Definitions of the fields of `owner`, with indices from `index` on. -/
def fields (scopes : List Scope) (owner : String) (shared : Bool) :
    Nat → List FieldDecl → Except ResolutionError (List Field)
  | _, [] => .ok []
  | index, f :: fs => do
    let type ← typeRef scopes f.typeName (owner ++ "." ++ f.name) f.position
    let rest ← fields scopes owner shared (index + 1) fs
    pure (⟨f.name, index, type, f.multiplicity, shared, f.position⟩ :: rest)

/-- Attributes as fields behind `own` fields of a constructor. -/
def sharedFields (own : Nat) (attributes : List Field) : List Field :=
  attributes.map fun a => { a with index := own + a.index }

/-- Definitions of constructors, with tags from `tag` on. -/
def constructors (scopes : List Scope) (key : TypeKey) (attributes : List Field) :
    Nat → List ConstructorDecl → Except ResolutionError (List Constructor)
  | _, [] => .ok []
  | tag, c :: cs => do
    let own ← fields scopes (key.id ++ "." ++ c.name) false 0 c.fields
    let rest ← constructors scopes key attributes (tag + 1) cs
    pure (⟨key, c.name, tag, own ++ sharedFields own.length attributes, c.position⟩ :: rest)

/-- Definition of a type with the given key. -/
def type (scopes : List Scope) (key : TypeKey) (decl : TypeDecl) :
    Except ResolutionError TypeDef :=
  match decl.body with
  | .product own => do
    pure ⟨key, decl.position, .product (← fields scopes key.id false 0 own)⟩
  | .sum cs shared => do
    let attributes ← fields scopes key.id true 0 shared
    pure ⟨key, decl.position, .sum (← constructors scopes key attributes 0 cs) attributes⟩

/-- Whether a declaration is of the kind that the last one of its name in the module has. -/
def counts (m : ModuleDecl) (decl : TypeDecl) : Bool :=
  match m.types.reverse.find? (·.name = decl.name), decl.body with
  | some ⟨_, _, .product _⟩, .product _ => true
  | some ⟨_, _, .sum _ _⟩, .sum _ _ => true
  | _, _ => false

/-- Warnings for the types of a module that hide one of the same name. -/
def shadowWarnings (earlier : List Scope) (m : ModuleDecl) : List Diagnostic :=
  m.types.filterMap fun decl =>
    (find earlier decl.name).map fun shadowed =>
      .warning (m.name ++ "." ++ decl.name)
        ("Type \"" ++ decl.name ++ "\" shadows \"" ++ shadowed.id ++ "\"") decl.position

/-- Whether a name begins with one of the letters A to Z. -/
def isCapitalized (name : String) : Bool :=
  match name.toList with
  | [] => false
  | c :: _ => c.isUpper

/-- Warnings for the constructors of a type that do not begin with a capital letter. -/
def caseWarnings (owner : String) (decl : TypeDecl) : List Diagnostic :=
  match decl.body with
  | .product _ => []
  | .sum cs _ =>
    (cs.filter fun c => !isCapitalized c.name).map fun c =>
      .warning (owner ++ "." ++ decl.name ++ "." ++ c.name)
        ("Constructor \"" ++ c.name ++ "\" should start with an uppercase letter") c.position

/-- The definitions of a module; `earlier` are the scopes its names may also refer to. -/
def module (serial : Nat) (earlier : List Scope) (m : ModuleDecl) :
    Except ResolutionError Module :=
  match m.types.find? fun decl => (Primitive.ofName? decl.name).isSome with
  | some decl => .error (.primitiveRedefined m.name decl.name decl.position)
  | none => do
    let scopes := declaredScope serial m :: earlier
    let counted := m.types.filter (counts m)
    let defs ← counted.mapM fun decl => type scopes ⟨serial, m.name, decl.name⟩ decl
    let types := m.types.filterMap fun decl => defs.reverse.find? (·.name = decl.name)
    pure ⟨serial, m.name, types⟩

/-- Warnings of loading a module. -/
def moduleWarnings (earlier : List Scope) (m : ModuleDecl) : List Diagnostic :=
  shadowWarnings earlier m ++ (m.types.filter (counts m)).flatMap (caseWarnings m.name)

/-- The modules of a tree, numbered from `serial` on; `text` are the scopes of the modules before
them. -/
def modules (base : List Module) : Nat → List Scope → List ModuleDecl →
    Except ResolutionError Resolved
  | _, _, [] => .ok ⟨[], []⟩
  | serial, text, m :: ms => do
    if m.name ∈ base.map Module.name then throw (.moduleLoaded m.name m.position)
    let earlier := text ++ base.map loadedScope
    let made ← module serial earlier m
    let rest ← modules base (serial + 1) (text ++ [declaredScope serial m]) ms
    pure ⟨made :: rest.modules, moduleWarnings earlier m ++ rest.warnings⟩

end Resolve

/-- The modules of a tree over base modules, numbered from `serial` on. -/
def SchemaTree.resolve (tree : SchemaTree) (serial : Nat) (base : List Module) :
    Except ResolveError Resolved :=
  match Resolve.modules base serial [] tree.modules with
  | .error e => .error (.resolution e)
  | .ok resolved =>
    match Representable.check (resolved.modules.flatMap Module.types) with
    | .error e => .error (.cycle e)
    | .ok () => .ok resolved

end Schemata
