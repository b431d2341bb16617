import Schemata.Value

/-!
# Reading and writing contents

Contents are read by field name or by index. Lists can be written to unless they are frozen, and so
can the lists that hold the contents of values. Writing beyond the end of a list leaves holes.
-/

namespace Schemata

/-- Which field to read. -/
inductive Selector where
  | name (name : String)
  | index (index : Number)
deriving DecidableEq, Repr

/-- Why a field cannot be read. -/
inductive AccessError where
  | outOfRange (index : Number) (label : String) (count : Nat)
  | unknownField (name label : String) (available : List String)
deriving DecidableEq, Repr

namespace AccessError

def message : AccessError → String
  | outOfRange index label count =>
    "Index " ++ index.text ++ " is out of range for " ++ label ++ " (" ++ toString count ++
      " field(s))"
  | unknownField name label _ => label ++ " has no field \"" ++ name ++ "\""

def path : AccessError → String
  | outOfRange index label _ => label ++ "[" ++ index.text ++ "]"
  | unknownField name label _ => label ++ "." ++ name

def suggestion? : AccessError → Option String
  | outOfRange _ _ _ => none
  | unknownField _ label [] => some (label ++ " has no fields")
  | unknownField _ _ names => some ("Available fields: " ++ ", ".intercalate names)

end AccessError

namespace Shape

/-- Names of the declared fields. -/
def fieldNames (v : Shape) : List String := v.declared.map Field.name

/-- Read a field. -/
def get (v : Shape) : Selector → Except AccessError Datum
  | .index x =>
    match x.toNat? with
    | some i =>
      if i < v.declared.length then .ok (contentAt v.contents i)
      else .error (.outOfRange x v.label v.declared.length)
    | none => .error (.outOfRange x v.label v.declared.length)
  | .name name =>
    match v.declared.find? (·.name = name) with
    | some f => .ok (v.content f)
    | none => .error (.unknownField name v.label v.fieldNames)

end Shape

namespace Store

/-- Append to a list, unless it is frozen. -/
def push (s : Store) (list : Datum) (d : Datum) : Option Store :=
  match list with
  | .object r =>
    match s.get? r with
    | some (.list false items) => some (s.set r (.list false (items ++ [some d])))
    | _ => none
  | _ => none

/-- A list with as many items and holes as asked for: items at the end go, or holes are added. -/
def resized (items : List (Option Datum)) (length : Nat) : List (Option Datum) :=
  items.take length ++ List.replicate (length - items.length) none

/-- Assign the length of a list, unless it is frozen. -/
def setLength (s : Store) (list : Datum) (length : Nat) : Option Store :=
  match list with
  | .object r =>
    match s.get? r with
    | some (.list false items) => some (s.set r (.list false (resized items length)))
    | _ => none
  | _ => none

/-- Assign an item at an index, unless the list is frozen. -/
def setItem (s : Store) (list : Datum) (index : Nat) (d : Datum) : Option Store :=
  match list with
  | .object r =>
    match s.get? r with
    | some (.list false items) =>
      let longer := resized items (max items.length (index + 1))
      some (s.set r (.list false (longer.set index (some d))))
    | _ => none
  | _ => none

/-- The list that holds the contents of a value. -/
def fieldsOf? (s : Store) (value : Datum) : Option Datum :=
  match s.node? value with
  | some (.value _ _ fields) => some (.object fields)
  | some (.record properties) => properties.get? "fields"
  | _ => none

/-- Assign the content at an index of a value. -/
def setField (s : Store) (value : Datum) (index : Nat) (d : Datum) : Option Store :=
  (s.fieldsOf? value).bind fun list => s.setItem list index d

/-- Assign how many contents a value has. -/
def setFieldCount (s : Store) (value : Datum) (count : Nat) : Option Store :=
  (s.fieldsOf? value).bind fun list => s.setLength list count

end Store

end Schemata
