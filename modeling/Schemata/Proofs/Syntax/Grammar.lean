import Schemata.Syntax
import Schemata.Token
import Mathlib.Data.List.Nodup

/-!
# The grammar of schemas

Which token sequences spell which declaration trees:

    schema   := module* end
    module   := "module" name "{" type* "}"
    type     := name "=" ( fields | sum )
    sum      := ctor ("|" ctor)* [ "attributes" fields ]
    ctor     := name [ fields ]
    fields   := "(" [ field ("," field)* ] ")"
    field    := name [ "*" | "?" ] name

Each relation of this file is one rule, read off without regard to how a sequence is parsed; a name
is any token of that kind. The position of a node is that of its first token. `SchemaTree.Distinct`
says which trees give no name twice in one place.
-/

namespace Schemata

namespace Grammar

/-- A sequence of any number of items. -/
inductive Many {α : Type} (Item : List Token → α → Prop) : List Token → List α → Prop
  | nil : Many Item [] []
  | cons {ts us : List Token} {a : α} {as : List α} :
    Item ts a → Many Item us as → Many Item (ts ++ us) (a :: as)

/-- At least one item, and a token of the given kind between any two. -/
inductive Separated {α : Type} (kind : TokenKind) (Item : List Token → α → Prop) :
    List Token → List α → Prop
  | one {ts : List Token} {a : α} : Item ts a → Separated kind Item ts [a]
  | cons {ts us : List Token} {t : Token} {a : α} {as : List α} :
    Item ts a → t.kind = kind → Separated kind Item us as →
    Separated kind Item (ts ++ t :: us) (a :: as)

/-- The marks for optional and repeated fields. -/
inductive Mark : TokenKind → Multiplicity → Prop
  | star : Mark .star .repeated
  | question : Mark .question .optional

/-- `name [ "*" | "?" ] name` -/
inductive Field : List Token → FieldDecl → Prop
  | plain {type name : Token} : type.kind = .name → name.kind = .name →
    Field [type, name] ⟨name.text, type.text, .single, type.position⟩
  | marked {type mark name : Token} {multiplicity : Multiplicity} :
    type.kind = .name → Mark mark.kind multiplicity → name.kind = .name →
    Field [type, mark, name] ⟨name.text, type.text, multiplicity, type.position⟩

/-- `"(" [ field ("," field)* ] ")"` -/
inductive Fields : List Token → List FieldDecl → Prop
  | empty {l r : Token} : l.kind = .openParen → r.kind = .closeParen → Fields [l, r] []
  | filled {l r : Token} {ts : List Token} {fs : List FieldDecl} :
    l.kind = .openParen → Separated .comma Field ts fs → r.kind = .closeParen →
    Fields (l :: (ts ++ [r])) fs

/-- `name [ fields ]` -/
inductive Ctor : List Token → ConstructorDecl → Prop
  | bare {name : Token} : name.kind = .name → Ctor [name] ⟨name.text, name.position, []⟩
  | listed {name : Token} {ts : List Token} {fs : List FieldDecl} :
    name.kind = .name → Fields ts fs → Ctor (name :: ts) ⟨name.text, name.position, fs⟩

/-- `[ "attributes" fields ]` -/
inductive Attributes : List Token → List FieldDecl → Prop
  | missing : Attributes [] []
  | given {keyword : Token} {ts : List Token} {fs : List FieldDecl} :
    keyword.kind = .attributes → Fields ts fs → Attributes (keyword :: ts) fs

/-- `fields | ctor ("|" ctor)* [ "attributes" fields ]` -/
inductive Body : List Token → TypeBody → Prop
  | product {ts : List Token} {fs : List FieldDecl} : Fields ts fs → Body ts (.product fs)
  | sum {ts us : List Token} {cs : List ConstructorDecl} {fs : List FieldDecl} :
    Separated .bar Ctor ts cs → Attributes us fs → Body (ts ++ us) (.sum cs fs)

/-- `name "=" body` -/
inductive Decl : List Token → TypeDecl → Prop
  | declared {name equals : Token} {ts : List Token} {body : TypeBody} :
    name.kind = .name → equals.kind = .equals → Body ts body →
    Decl (name :: equals :: ts) ⟨name.text, name.position, body⟩

/-- `"module" name "{" type* "}"` -/
inductive Module : List Token → ModuleDecl → Prop
  | declared {keyword name l r : Token} {ts : List Token} {types : List TypeDecl} :
    keyword.kind = .module → name.kind = .name → l.kind = .openBrace → Many Decl ts types →
    r.kind = .closeBrace →
    Module (keyword :: name :: l :: (ts ++ [r])) ⟨name.text, keyword.position, types⟩

/-- `module* end` -/
inductive Schema : List Token → SchemaTree → Prop
  | modules {ts : List Token} {t : Token} {ms : List ModuleDecl} :
    Many Module ts ms → t.kind = .endOfInput → Schema (ts ++ [t]) ⟨ms⟩

end Grammar

/-- The names that a body gives to constructors and fields. -/
def TypeBody.givenNames : TypeBody → List String
  | .product fields => fields.map FieldDecl.name
  | .sum constructors attributes => attributes.map FieldDecl.name ++
    constructors.flatMap fun c => c.name :: c.fields.map FieldDecl.name

/-- The name of a module and those that it gives to types, constructors and fields. -/
def ModuleDecl.givenNames (m : ModuleDecl) : List String :=
  m.name :: m.types.flatMap fun t => t.name :: t.body.givenNames

/-- No two fields of the list, and no attribute and own field of a constructor, have the same
name; nor have two constructors. -/
def TypeBody.Distinct : TypeBody → Prop
  | .product fields => (fields.map FieldDecl.name).Nodup
  | .sum constructors attributes =>
    (constructors.map ConstructorDecl.name).Nodup ∧
    (∀ c ∈ constructors, (c.fields.map FieldDecl.name).Nodup) ∧
    (attributes.map FieldDecl.name).Nodup ∧
    ∀ c ∈ constructors, ∀ a ∈ attributes, a.name ∉ c.fields.map FieldDecl.name

/-- No two types of the module have the same name, and each is without repetition. -/
structure ModuleDecl.Distinct (m : ModuleDecl) : Prop where
  names : (m.types.map TypeDecl.name).Nodup
  bodies : ∀ t ∈ m.types, t.body.Distinct

/-- No name is given twice in one place: no two modules, types of a module, constructors of a sum
or fields of a list have the same name, and no attribute is named like an own field of a
constructor. -/
structure SchemaTree.Distinct (tree : SchemaTree) : Prop where
  names : (tree.modules.map ModuleDecl.name).Nodup
  modules : ∀ m ∈ tree.modules, m.Distinct

end Schemata
