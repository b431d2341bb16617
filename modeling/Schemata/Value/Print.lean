import Schemata.Text.Quoted
import Schemata.Value
import Schemata.Value.Path

/-!
# Printed values

A value is printed as

    Return(status=2)                      a sum value
    Break                                 a constructor without fields
    ("key", 1)                            a product value
    Call(name="f", args=[1, 2], label=_)  with a repeated field and an absent one

The text depends only on the value and the order of its declared fields. Values that nest deeper
than a limit are not printed.
-/

namespace Schemata

/-- A value is nested deeper than the limit allows. -/
structure DepthError where
  limit : Number
  place : Path
deriving DecidableEq, Repr

def DepthError.message (e : DepthError) : String :=
  "Value nesting exceeds the depth limit of " ++ e.limit.text

/-- Why a value has no printed form. -/
inductive PrintError where
  | depth (error : DepthError)
  | malformed
deriving DecidableEq, Repr

namespace Print

/-- Text of an absent content. -/
def absentMark : String := "_"

/-- Text of an element, given that of a value inside. -/
def element (value : Datum → Path → Except PrintError String) (d : Datum) (place : Path) :
    Except PrintError String :=
  match d with
  | .text t => .ok (Text.quote t)
  | .number x => .ok x.text
  | .bool b => .ok (if b then "true" else "false")
  | d => value d place

/-- Texts of the items of the list at `place`, the first of which has the given index. Nothing
stands for a hole. -/
def items (value : Datum → Path → Except PrintError String) (place : Path) :
    Nat → List (Option Datum) → Except PrintError (List String)
  | _, [] => .ok []
  | index, none :: ds => do
    let rest ← items value place (index + 1) ds
    pure ("" :: rest)
  | index, some d :: ds => do
    let text ← element value d (place.item index)
    let rest ← items value place (index + 1) ds
    pure (text :: rest)

/-- Text of the content of a field. -/
def content (s : Store) (value : Datum → Path → Except PrintError String) (d : Datum)
    (place : Path) : Except PrintError String :=
  if s.isEmpty d then .ok absentMark
  else
    match s.list? d with
    | some ds => do
      pure ("[" ++ ", ".intercalate (← items value place 0 ds) ++ "]")
    | none => element value d place

/-- Texts of the contents of fields. -/
def fields (s : Store) (value : Datum → Path → Except PrintError String) (v : Shape)
    (place : Path) : List Field → Except PrintError (List String)
  | [] => .ok []
  | f :: fs => do
    let text ← content s value (v.content f) (place.field f.name)
    let rest ← fields s value v place fs
    pure (text :: rest)

/-- Text of a value around the texts of its contents. -/
def assemble (v : Shape) (texts : List String) : String :=
  match v.kind with
  | .product => "(" ++ ", ".intercalate texts ++ ")"
  | .sum =>
    if v.declared.isEmpty then v.label
    else
      v.label ++ "(" ++
        ", ".intercalate (List.zipWith (fun f text => f.name ++ "=" ++ text) v.declared texts) ++
        ")"

/-- Text of a value that `levels` levels of nesting may be used for; `tooDeep` is the error when
they are used up. -/
def value (s : Store) (tooDeep : Path → PrintError) (levels : Nat) (d : Datum) (place : Path) :
    Except PrintError String :=
  match levels with
  | 0 => .error (tooDeep place)
  | levels + 1 =>
    match s.shape? d with
    | none => .error .malformed
    | some v => do
      pure (assemble v (← fields s (value s tooDeep levels) v place v.declared))

end Print

/-- Text of a value with a depth limit. Without a limit the nesting still ends, as a value that does
not contain itself nests at most as deep as there are nodes. -/
def Store.print (s : Store) (limit : Number) (d : Datum) : Except PrintError String :=
  match s.shape? d with
  | none => .error .malformed
  | some v =>
    match limit.levels with
    | some n => Print.value s (fun place => .depth ⟨limit, place⟩) n d (.ofRoot v.label)
    | none => Print.value s (fun _ => .malformed) s.size d (.ofRoot v.label)

end Schemata
