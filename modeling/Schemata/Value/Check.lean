import Schemata.Value.Description
import Schemata.Value.Path

/-!
# Checking data against types

`Store.check` decides whether a datum conforms to a type. A value conforms to a declared type if it
is of that very type and kind, its constructor and tag belong together and to the type, and each of
its fields conforms; values made by construction were checked then and are accepted as they are.
Holes in lists are passed over. The first violation in declaration order is found with its path.

`Store.validate` reports what the check finds. The message may speak of data that have no text; then
it cannot be made, and an error that is none of the library's is raised in place of the report.

Plain objects that count as values can contain themselves. A checker keeps the values it is inside
of and refuses to enter one of them again, so it never goes deeper than there are nodes.
-/

namespace Schemata

/-- What is wrong at a place, and what is said of the data there, if anything can be said. -/
inductive Mismatch where
  | expected (what : String) (found : Option String)
  | foreignConstructor (type : String)
  | wrongTag (tag : Option String) (constructor : String) (own : Nat)
  | containsItself (label : String)
  | fieldCount (label : String) (actual declared : Nat)
  | productConstructor (type constructor : String)
  | missingConstructor (type : String) (available : List String)
deriving DecidableEq, Repr

/-- The words for what is wrong, if there are any. -/
def Mismatch.text? : Mismatch → Option String
  | expected what found => found.map fun found => "expected " ++ what ++ ", got " ++ found
  | foreignConstructor type => some ("constructor is not one of " ++ type ++ "'s constructors")
  | wrongTag tag constructor own =>
    tag.map fun tag =>
      "tag " ++ tag ++ " does not match constructor " ++ constructor ++ " (tag " ++ toString own ++ ")"
  | containsItself label => some (label ++ " value contains itself")
  | fieldCount label actual declared =>
    some (label ++ " has " ++ toString actual ++ " field(s), expected " ++ toString declared)
  | productConstructor type constructor =>
    some ("product type \"" ++ type ++ "\" has no constructors, got \"" ++ constructor ++ "\"")
  | missingConstructor type available =>
    some ("sum type \"" ++ type ++ "\" needs a constructor name (one of " ++
      ", ".intercalate available ++ ")")

/-- A violation and its place. -/
structure MismatchError where
  cause : Mismatch
  place : Path
deriving DecidableEq, Repr

/-- A violation as it is reported. The path is a text but for a violation of a whole value whose
label is none. -/
structure Rejection where
  path : Datum
  message : String
deriving DecidableEq, Repr

/-- The report of what is wrong at the place of a label, or at a path that starts there. A label
that does not count as true does not stand in front of the message. -/
def Store.rejection? (s : Store) (label : Datum) (e : MismatchError) : Option Rejection := do
  let words ← e.cause.text?
  match e.place.steps with
  | [] =>
    if label.isTruthy then pure ⟨label, (← s.display label) ++ ": " ++ words⟩
    else pure ⟨if label = .missing then .text "" else label, words⟩
  | _ => pure ⟨.text e.place.text, e.place.text ++ ": " ++ words⟩

/-- Whether a datum is of a primitive type. -/
def Primitive.accepts : Primitive → Datum → Bool
  | string, .text _ => true
  | int, .number n => n.isSafeInteger
  | bool, .bool _ => true
  | _, _ => false

namespace Check

/-- Outcome of a check. -/
abbrev Verdict := Except MismatchError Unit

def fail (cause : Mismatch) (place : Path) : Verdict := .error ⟨cause, place⟩

/-- Check the items of the list at `place`, the first of which has the given index. -/
def items (element : Datum → Path → Verdict) (place : Path) : Nat → List (Option Datum) → Verdict
  | _, [] => .ok ()
  | index, none :: ds => items element place (index + 1) ds
  | index, some d :: ds => do
    element d (place.item index)
    items element place (index + 1) ds

/-- Check the content of a field, given the check of its elements. -/
def field (s : Store) (element : TypeRef → Datum → Path → Verdict) (f : Field) (d : Datum)
    (place : Path) : Verdict :=
  match f.multiplicity with
  | .single => element f.type d place
  | .optional => if s.isEmpty d then .ok () else element f.type d place
  | .repeated =>
    match s.list? d with
    | some ds => items (element f.type) place 0 ds
    | none => fail (.expected f.describe (s.describe d)) place

/-- Check fields one after the other. -/
def fields (s : Store) (element : TypeRef → Datum → Path → Verdict) (contents : List Datum)
    (place : Path) : List Field → Verdict
  | [] => .ok ()
  | f :: fs => do
    field s element f (contentAt contents f.index) (place.field f.name)
    fields s element contents place fs

/-- The constructor of a sum value, checked against its type. -/
def constructor (s : Store) (t : TypeDef) (v : ValueView) (place : Path) :
    Except MismatchError Constructor :=
  match v.constructor with
  | .constructor c =>
    if c ∈ t.constructors then
      if v.tag.isNat c.tag then .ok c
      else .error ⟨.wrongTag (s.display v.tag) c.name c.tag, place⟩
    else .error ⟨.foreignConstructor t.name, place⟩
  | _ => .error ⟨.foreignConstructor t.name, place⟩

/-- What a value checked against `key` is made of, its contents apart: its label and the fields it
must have. -/
def outline (s : Store) (key : TypeKey) (d : Datum) (place : Path) :
    Except MismatchError Shape :=
  let mismatch : Except MismatchError Shape :=
    .error ⟨.expected key.name (s.describe d), place⟩
  match s.view? d with
  | some v =>
    match v.type with
    | .typeDef t =>
      if t.key = key ∧ t.kind = v.kind then
        match t.shape with
        | .product declared => .ok ⟨.product, t.name, declared, v.fields⟩
        | .sum _ _ => do
          let c ← constructor s t v place
          pure ⟨.sum, c.name, c.fields, v.fields⟩
      else mismatch
    | _ => mismatch
  | none => mismatch

/-- Whether a node is a value made by construction. -/
def isBuilt (s : Store) (r : Ref) : Bool :=
  match s.get? r with
  | some (.value ..) => true
  | _ => false

/-- Check an element. `inside` are the values that the element is part of; `room` is the number of
values that can be entered beside them. -/
def element (s : Store) (room : Nat) (inside : List Ref) (type : TypeRef) (d : Datum)
    (place : Path) : Verdict :=
  match type with
  | .primitive p =>
    if p.accepts d then .ok () else fail (.expected p.name (s.describe d)) place
  | .declared key => do
    let v ← outline s key d place
    match d with
    | .object r =>
      if isBuilt s r then .ok ()
      else if r ∈ inside then fail (.containsItself v.label) place
      else if v.contents.length ≠ v.declared.length then
        fail (.fieldCount v.label v.contents.length v.declared.length) place
      else
        match room with
        | 0 => fail (.containsItself v.label) place
        | room + 1 => fields s (element s room (r :: inside)) v.contents place v.declared
    | _ => fail (.expected key.name (s.describe d)) place

end Check

/-- Label of the root of a check: that of a value, the name of the type for anything else. -/
def Store.rootLabel (s : Store) (type : TypeRef) (d : Datum) : Datum :=
  match s.view? d with
  | some v => s.label v
  | none => .text type.name

/-- The place of the root of a check. Only below a label that is a text there are other places. -/
def Store.rootPlace (s : Store) (type : TypeRef) (d : Datum) : Path :=
  .ofRoot ((s.rootLabel type d).text?.getD "")

/-- Check a datum against a type. -/
def Store.check (s : Store) (type : TypeRef) (d : Datum) : Check.Verdict :=
  Check.element s s.size [] type d (s.rootPlace type d)

/-- How a validation ends: the datum is valid, or a violation is reported, or it has no report. -/
inductive Validation where
  | valid
  | invalid (error : Rejection)
  | raised
deriving DecidableEq, Repr

/-- Check a datum against a type and report a violation. -/
def Store.validate (s : Store) (type : TypeRef) (d : Datum) : Validation :=
  match s.check type d with
  | .ok () => .valid
  | .error e =>
    match s.rejection? (s.rootLabel type d) e with
    | some report => .invalid report
    | none => .raised

/-- Check the content of a field at a place. -/
def Store.checkField (s : Store) (f : Field) (d : Datum) (place : Path) : Check.Verdict :=
  Check.field s (Check.element s s.size []) f d place

/-- What a datum can be checked against. -/
inductive Expected where
  | named (name : String)
  | type (ref : TypeRef)
deriving DecidableEq, Repr

/-- The type that is expected; a name is that of a primitive type or of one of the model. -/
def Model.expected (m : Model) : Expected → Except ResolutionError TypeRef
  | .type ref => .ok ref
  | .named name =>
    match Primitive.ofName? name with
    | some p => .ok (.primitive p)
    | none => (m.getType name).map fun t => .declared t.key

end Schemata
