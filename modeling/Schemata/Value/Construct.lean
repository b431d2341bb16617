import Schemata.Value.Check

/-!
# Constructing values

A value is made of the name of a type, for a sum also the name of a constructor, and the contents of
its fields: one for each field in order, or by field name, where an optional or repeated field may
be left out. Every content is checked. The empty content of an optional field becomes the absent
marker, and the list in a repeated field is copied, with its holes, into a frozen one. The list of
the contents is frozen as well.
-/

namespace Schemata

/-- Contents for the fields of a value, in order or by name. -/
inductive Inputs where
  | positional (contents : List Datum)
  | named (contents : Record Datum)
deriving DecidableEq, Repr

/-- Why contents do not go with the declared fields. -/
inductive ArityError where
  | count (label : String) (declared given : Nat)
  | unknown (label : String) (first : String) (others : List String)
  | missing (label field : String)
deriving DecidableEq, Repr

namespace ArityError

def message : ArityError → String
  | count label declared given =>
    label ++ " takes " ++ toString declared ++ " field(s), got " ++ toString given
  | unknown label first others =>
    label ++ " has no field(s) " ++
      ", ".intercalate ((first :: others).map fun name => "\"" ++ name ++ "\"")
  | missing label field => label ++ " is missing field \"" ++ field ++ "\""

def path : ArityError → String
  | count label _ _ => label
  | unknown label first _ => label ++ "." ++ first
  | missing label field => label ++ "." ++ field

end ArityError

/-- Why a value cannot be made. -/
inductive ConstructError where
  | resolution (error : ResolutionError)
  | arity (error : ArityError)
  | mismatch (error : MismatchError)
deriving DecidableEq, Repr

namespace Construct

/-- A failed check as a failed construction. -/
def checked (verdict : Check.Verdict) : Except ConstructError Unit :=
  verdict.mapError .mismatch

/-- Contents in order: one for each declared field. -/
def positional (s : Store) (label : String) (contents : List Datum) :
    List Field → Except ConstructError (List Datum)
  | [] => .ok []
  | f :: fs => do
    let d := contents.headD .missing
    checked (s.checkField f d ((Path.ofRoot label).field f.name))
    let rest ← positional s label contents.tail fs
    pure (d :: rest)

/-- Content of a field that is given by name or left out. -/
def namedContent (s : Store) (label : String) (contents : Record Datum) (f : Field) :
    Except ConstructError Datum :=
  match contents.get? f.name, f.multiplicity with
  | some d, _ => do
    checked (s.checkField f d ((Path.ofRoot label).field f.name))
    pure d
  | none, .single => .error (.arity (.missing label f.name))
  | none, _ => .ok .absent

/-- Contents for the declared fields, checked; a repeated field that was left out holds the absent
marker. -/
def contents (s : Store) (label : String) (declared : List Field) :
    Inputs → Except ConstructError (List Datum)
  | .positional ds =>
    if ds.length ≠ declared.length then
      .error (.arity (.count label declared.length ds.length))
    else positional s label ds declared
  | .named r =>
    match r.keys.filter (· ∉ declared.map Field.name) with
    | first :: others => .error (.arity (.unknown label first others))
    | [] => declared.mapM (namedContent s label r)

/-- Store the checked content of a field in its final form. -/
def settle (s : Store) (f : Field) (d : Datum) : Datum × Store :=
  match f.multiplicity with
  | .single => (d, s)
  | .optional => (if s.isEmpty d then .absent else d, s)
  | .repeated =>
    let (r, s') := s.add (.list true ((s.list? d).getD []))
    (.object r, s')

/-- Store the checked contents of fields in their final form. -/
def settleAll (s : Store) : List Field → List Datum → List Datum × Store
  | f :: fs, d :: ds =>
    let (d', s') := settle s f d
    let (rest, s'') := settleAll s' fs ds
    (d' :: rest, s'')
  | _, _ => ([], s)

/-- The constructor of a name, or none for a product type. -/
def constructor (t : TypeDef) (name : Option String) :
    Except ConstructError (Option Constructor) :=
  match t.shape, name with
  | .product _, none => .ok none
  | .product _, some name =>
    .error (.mismatch ⟨.productConstructor t.name name, .ofRoot t.name⟩)
  | .sum cs _, none =>
    .error (.mismatch ⟨.missingConstructor t.name (cs.map Constructor.name), .ofRoot t.name⟩)
  | .sum cs _, some name =>
    match cs.find? (·.name = name) with
    | some c => .ok (some c)
    | none => .error (.resolution (.unknownConstructor t.key name (cs.map Constructor.name)))

/-- Label of the values of a type made with a constructor. -/
def label (t : TypeDef) : Option Constructor → String
  | some c => c.name
  | none => t.name

/-- Declared fields of the values of a type made with a constructor. -/
def declared (t : TypeDef) : Option Constructor → List Field
  | some c => c.fields
  | none => t.fields

end Construct

/-- Add a value of a type with its contents, which are put into a frozen list. -/
def Construct.enclose (t : TypeDef) (c : Option Constructor) (contents : List Datum) (s : Store) :
    Ref × Store :=
  let (fields, s') := s.add (.list true (contents.map some))
  s'.add (.value t c fields)

/-- Make a value of a type, with the constructor of a name if the type is a sum. -/
def Store.construct (s : Store) (m : Model) (typeName : String) (constructorName : Option String)
    (inputs : Inputs) : Except ConstructError (Ref × Store) := do
  let t ← (m.getType typeName).mapError .resolution
  let c ← Construct.constructor t constructorName
  let declared := Construct.declared t c
  let contents ← Construct.contents s (Construct.label t c) declared inputs
  let (fields, s') := Construct.settleAll s declared contents
  pure (Construct.enclose t c fields s')

end Schemata
