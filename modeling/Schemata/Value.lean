import Schemata.Model
import Schemata.Number.Shortest
import Schemata.Record

/-!
# Values and the store that holds them

A datum is what a field, a list or a property can hold. Lists, plain objects and values have an
identity: they live in a `Store`, and a datum refers to them. A list need not have an item at each
of its indices: where it has none there is a hole, which is passed over when the items are gone
through, and where nothing is read.

A value is made in one of two ways. `Node.value` is a value made by construction. A plain object
that has the properties of a value counts as a value too (`Store.view?`), whatever these properties
hold. The contents of the fields are the items of a list in either case, so a value changes when
this list is written to, which cannot be done if the list is frozen. No properties are written to.

`Store.view?` gives the properties of anything that counts as a value, and `Store.shape?` the label
and declared fields of those for which they are defined.
-/

namespace Schemata

/-- Identity of a node in a store. -/
structure Ref where
  index : Nat
deriving DecidableEq, Repr, Inhabited

/-- What can be held: nothing in one of three forms, a scalar, a definition of a model, or a
reference to a list, a plain object or a value. -/
inductive Datum where
  | missing
  | null
  | absent
  | bool (value : Bool)
  | number (value : Number)
  | text (value : String)
  | typeDef (type : TypeDef)
  | constructor (constructor : Constructor)
  | object (ref : Ref)
deriving DecidableEq, Repr, Inhabited

/-- What a reference leads to: a list, in which `none` is a hole, a plain object, or a value made by
construction, whose contents are the items of the list at `fields`. A product has no constructor. -/
inductive Node where
  | list (frozen : Bool) (items : List (Option Datum))
  | record (properties : Record Datum)
  | value (type : TypeDef) (constructor : Option Constructor) (fields : Ref)
deriving DecidableEq, Repr, Inhabited

/-- All lists, plain objects and values there are. -/
structure Store where
  nodes : Array Node
deriving Repr, Inhabited

/-- A value made by construction, with its contents as they are read. -/
structure Built where
  type : TypeDef
  constructor : Option Constructor
  fields : List Datum
deriving DecidableEq, Repr, Inhabited

/-- The properties of something that counts as a value, with its contents as they are read. -/
structure ValueView where
  kind : TypeKind
  type : Datum
  constructor : Datum
  tag : Datum
  fields : List Datum
deriving DecidableEq, Repr

/-- A value with the label and the fields that its type or constructor declares. -/
structure Shape where
  kind : TypeKind
  label : String
  declared : List Field
  contents : List Datum
deriving DecidableEq, Repr

namespace Datum

/-- Whether a datum has an identity of its own. -/
def isObject : Datum → Bool
  | absent | typeDef _ | constructor _ | object _ => true
  | _ => false

/-- Whether a datum is the number `n`. -/
def isNat (d : Datum) (n : Nat) : Bool :=
  match d with
  | number x => x.toInt? = some (n : Int)
  | _ => false

end Datum

/-- The kind of value that a property says. -/
def TypeKind.ofDatum? : Datum → Option TypeKind
  | .text s => if s = "sum" then some .sum else if s = "product" then some .product else none
  | _ => none

/-- The properties of a constructed value. -/
def Built.view (b : Built) : ValueView :=
  match b.constructor with
  | some c => ⟨.sum, .typeDef b.type, .constructor c, .number (.ofNat c.tag), b.fields⟩
  | none => ⟨.product, .typeDef b.type, .missing, .missing, b.fields⟩

/-- The items of a list as they are read, one after the other: nothing in place of a hole. -/
def readItems (items : List (Option Datum)) : List Datum := items.map (Option.getD · .missing)

/-- Content at an index, nothing beyond the end. -/
def contentAt (contents : List Datum) (index : Nat) : Datum :=
  contents[index]?.getD .missing

namespace Store

def empty : Store := ⟨#[]⟩

def size (s : Store) : Nat := s.nodes.size

def get? (s : Store) (r : Ref) : Option Node := s.nodes[r.index]?

/-- Add a node; its reference was not in use before. -/
def add (s : Store) (n : Node) : Ref × Store := (⟨s.size⟩, ⟨s.nodes.push n⟩)

/-- Replace a node. -/
def set (s : Store) (r : Ref) (n : Node) : Store := ⟨s.nodes.setIfInBounds r.index n⟩

/-- The node that a datum refers to. -/
def node? (s : Store) : Datum → Option Node
  | .object r => s.get? r
  | _ => none

/-- The items and holes of a list. -/
def list? (s : Store) (d : Datum) : Option (List (Option Datum)) :=
  match s.node? d with
  | some (.list _ items) => some items
  | _ => none

/-- The property of a plain object. -/
def property? (s : Store) (d : Datum) (key : String) : Option Datum :=
  match s.node? d with
  | some (.record properties) => properties.get? key
  | _ => none

/-- The property `kind` of an object, where it is a text. -/
def kindName? (s : Store) (d : Datum) : Option String :=
  match d with
  | .absent => some "absent"
  | .typeDef t => some t.kind.name
  | _ =>
    match s.node? d with
    | some (.value _ none _) => some TypeKind.product.name
    | some (.value _ (some _) _) => some TypeKind.sum.name
    | _ =>
      match s.property? d "kind" with
      | some (.text kind) => some kind
      | _ => none

/-- The property `name` of an object. -/
def name (s : Store) (d : Datum) : Datum :=
  match d with
  | .typeDef t => .text t.name
  | .constructor c => .text c.name
  | _ => (s.property? d "name").getD .missing

/-- Whether a datum marks the content of an optional field as absent. -/
def isAbsent (s : Store) (d : Datum) : Bool := s.kindName? d = some "absent"

/-- Whether a datum stands for no content of an optional field. -/
def isEmpty (s : Store) (d : Datum) : Bool :=
  match d with
  | .missing | .null => true
  | _ => s.isAbsent d

/-- The properties of a plain object that counts as a value: its kind is that of a sum or a product,
its type is an object, its fields are a list, and for a sum its constructor is an object. -/
def recordView? (s : Store) (properties : Record Datum) : Option ValueView := do
  let kind ← TypeKind.ofDatum? (← properties.get? "kind")
  let type ← (properties.get? "type").filter Datum.isObject
  let items ← s.list? (← properties.get? "fields")
  let constructor := (properties.get? "ctor").getD .missing
  let tag := (properties.get? "tag").getD .missing
  if kind = .product || constructor.isObject then
    some ⟨kind, type, constructor, tag, readItems items⟩
  else none

/-- The properties of anything that counts as a value. -/
def view? (s : Store) (d : Datum) : Option ValueView :=
  match s.node? d with
  | some (.value type constructor fields) =>
    (s.list? (.object fields)).map fun items => Built.view ⟨type, constructor, readItems items⟩
  | some (.record properties) => s.recordView? properties
  | _ => none

/-- Whether a datum counts as a value. -/
def isValue (s : Store) (d : Datum) : Bool := (s.view? d).isSome

/-- Name of the constructor of a sum value, of the type of a product value. It need not be a text if
the value is a plain object. -/
def label (s : Store) (v : ValueView) : Datum :=
  match v.kind with
  | .sum => s.name v.constructor
  | .product => s.name v.type

end Store

/-- Label and declared fields of a value, if its constructor, or the type of a product, is one of
a model. -/
def ValueView.shape? (v : ValueView) : Option Shape :=
  match v.kind, v.constructor, v.type with
  | .sum, .constructor c, _ => some ⟨.sum, c.name, c.fields, v.fields⟩
  | .product, _, .typeDef ⟨key, _, .product fields⟩ =>
    some ⟨.product, key.name, fields, v.fields⟩
  | _, _, _ => none

/-- Label and declared fields of what a datum refers to. -/
def Store.shape? (s : Store) (d : Datum) : Option Shape :=
  (s.view? d).bind ValueView.shape?

/-- Content of a declared field. -/
def Shape.content (v : Shape) (f : Field) : Datum := contentAt v.contents f.index

end Schemata
