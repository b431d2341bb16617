import Schemata.Value

/-!
# Data in messages

Inside a message any datum stands as a text (`Store.display`). A plain object with a property
`toString` of its own has no text, as no datum can be called to give one; a message that it would
stand in cannot be made. Lists show what their items show.
-/

namespace Schemata

namespace Datum

/-- The text that a datum is. -/
def text? : Datum → Option String
  | text t => some t
  | _ => none

/-- Whether a datum counts as true where a condition is asked for. -/
def isTruthy : Datum → Bool
  | missing | null => false
  | bool b => b
  | number x => x ≠ .nan ∧ x.toInt? ≠ some 0
  | text t => t ≠ ""
  | absent | typeDef _ | constructor _ | object _ => true

end Datum

namespace Store

/-- The property by which a plain object would give its text. -/
def textProperty : String := "toString"

/-- Text of an item of a list: nothing is written for a hole or what is no content. -/
def displayItem (display : Datum → Option String) : Option Datum → Option String
  | none | some .missing | some .null => some ""
  | some d => display d

/-- Items of a list joined into a text. -/
def displayItems (display : Datum → Option String) (items : List (Option Datum)) : Option String :=
  (items.mapM (displayItem display)).map (",".intercalate ·)

/-- Text of any datum inside a message, if it has one. A list inside of itself shows nothing;
`inside` are the lists that the datum is part of, and `room` is the number of lists that can be
entered beside them. -/
def displayWithin (s : Store) (room : Nat) (inside : List Ref) (d : Datum) : Option String :=
  match d with
  | .missing => some "undefined"
  | .null => some "null"
  | .bool b => some (if b then "true" else "false")
  | .number x => some x.text
  | .text t => some t
  | .object r =>
    match s.list? (.object r) with
    | some items =>
      if r ∈ inside then some ""
      else
        match room with
        | 0 => some ""
        | room + 1 => displayItems (s.displayWithin room (r :: inside)) items
    | none =>
      if (s.property? (.object r) textProperty).isSome then none else some "[object Object]"
  | .absent | .typeDef _ | .constructor _ => some "[object Object]"

/-- Text of any datum inside a message, if it has one. -/
def display (s : Store) (d : Datum) : Option String := s.displayWithin s.size [] d

/-- Short description of a datum in messages, if it can be given. -/
def describe (s : Store) (d : Datum) : Option String :=
  match d with
  | .missing | .null => some "nothing"
  | .bool _ => some "bool"
  | .number n => some (if n.isSafeInteger then "int" else "non-integer number " ++ n.text)
  | .text _ => some "string"
  | d =>
    if s.isAbsent d then some "absent"
    else
      match s.view? d with
      | some v =>
        if s.kindName? v.type = some v.kind.name then do
          let label ← s.display (s.label v)
          let type ← s.display (s.name v.type)
          pure (label ++ " (" ++ type ++ ")")
        else some ("malformed " ++ v.kind.name ++ " value")
      | none => some (if (s.list? d).isSome then "list" else "object")

end Store

end Schemata
