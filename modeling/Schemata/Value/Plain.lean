import Schemata.Value.Access

/-!
# The plain view of values

The plain view of a value is a record with one property for each declared field. A sum value has in
addition the property `_type`, which names its constructor. Absent contents become null, lists stay
lists with their holes, and values inside become records.
-/

namespace Schemata

/-- Plain data; a list may have holes. Anything else is `other`. -/
inductive Plain where
  | missing
  | null
  | bool (value : Bool)
  | number (value : Number)
  | text (value : String)
  | list (items : List (Option Plain))
  | record (entries : List (String × Plain))
  | other
deriving Repr, Inhabited

namespace Plain

/-- The record of a value, given the views of its contents. The reserved name `__proto__` is not
kept, and of two properties of one name the later one counts. -/
def ofShape (v : Shape) (contents : List Plain) : Plain :=
  let tagged := match v.kind with
    | .sum => [("_type", text v.label)]
    | .product => []
  let entries := v.fieldNames.zip contents
  record (Record.ofList (tagged ++ entries.filter (·.1 ≠ "__proto__"))).entries

/-- View of an item of a list: a hole stays one. -/
def ofItem? (view? : Datum → Option Plain) : Option Datum → Option (Option Plain)
  | none => some none
  | some d => (view? d).map some

/-- View of a datum; `none` if it contains itself or a value without declared fields. The first
argument bounds how deep lists and values can be nested. -/
def ofDatum? (s : Store) : Nat → Datum → Option Plain
  | 0, _ => none
  | n + 1, d =>
    match d with
    | .missing => some missing
    | .null => some null
    | .bool b => some (bool b)
    | .number x => some (number x)
    | .text t => some (text t)
    | d =>
      if s.isAbsent d then some null
      else
        match s.list? d with
        | some items => (items.mapM (ofItem? (ofDatum? s n))).map list
        | none =>
          match s.view? d with
          | none => some other
          | some view => do
            let v ← view.shape?
            let contents ← v.declared.mapM fun f => ofDatum? s n (v.content f)
            pure (ofShape v contents)

end Plain

/-- Plain view of a value. -/
def Store.plain? (s : Store) (v : Shape) : Option Plain := do
  let contents ← v.declared.mapM fun f => Plain.ofDatum? s (s.size + 1) (v.content f)
  pure (Plain.ofShape v contents)

end Schemata
