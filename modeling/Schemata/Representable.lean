import Schemata.Model

/-!
# Types with finite values

A product has a finite value when all types of its single fields have one, a sum when this holds for
the fields of some constructor; repeated and optional fields may be empty. `representable` grows the
set of types that are seen to have one until nothing is added. When a type stays outside, following
single fields of types outside leads into a cycle, and this cycle is reported.
-/

namespace Schemata

/-- Types that embed each other without end: their names along the cycle, the first one again at
the end, and the position of the first. -/
structure CycleError where
  cycle : List String
  position : Position
deriving DecidableEq, Repr

namespace CycleError

def message (e : CycleError) : String :=
  "Unguarded recursive embedding: " ++ " → ".intercalate e.cycle

def path (e : CycleError) : String := e.cycle.headD ""

def suggestion : String := "Make one of the fields on the cycle repeated (*) or optional (?)"

end CycleError

namespace Representable

/-- Whether a field can be filled, given the types under examination and those known to have a
value. Types that are not under examination have one. -/
def fieldOk (fresh ok : List TypeKey) (f : Field) : Bool :=
  match f.multiplicity, f.type with
  | .single, .declared k => k ∉ fresh || k ∈ ok
  | _, _ => true

/-- Whether a value of the type can be built, given the types known to have one. -/
def typeOk (fresh ok : List TypeKey) (t : TypeDef) : Bool :=
  match t.shape with
  | .product fields => fields.all (fieldOk fresh ok)
  | .sum constructors _ => constructors.any fun c => c.fields.all (fieldOk fresh ok)

/-- Keys of the types that can be built from those known to have a value. -/
def round (types : List TypeDef) (ok : List TypeKey) : List TypeKey :=
  (types.filter (typeOk (types.map TypeDef.key) ok)).map TypeDef.key

/-- Repeat `round` until nothing is added. -/
def grow (types : List TypeDef) : Nat → List TypeKey → List TypeKey
  | 0, ok => ok
  | n + 1, ok =>
    let next := round types ok
    if next.length = ok.length then ok else grow types n next

/-- Keys of the types that have a finite value; each round but the last adds one. -/
def representable (types : List TypeDef) : List TypeKey :=
  grow types types.length []

/-- The type of the first field that cannot be filled, in the product or in the first
constructor. -/
def blocker? (types : List TypeDef) (ok : List TypeKey) (t : TypeDef) : Option TypeDef :=
  let fields := match t.shape with
    | .product fields => fields
    | .sum constructors _ => (constructors.head?.map Constructor.fields).getD []
  match fields.find? fun f => !fieldOk (types.map TypeDef.key) ok f with
  | some ⟨_, _, .declared k, _, _, _⟩ => types.find? (·.key = k)
  | _ => none

/-- Follow blockers from a type until one repeats. -/
def follow (types : List TypeDef) (ok : List TypeKey) : Nat → List TypeDef → TypeDef → CycleError
  | 0, _, current => ⟨[current.name], current.position⟩
  | n + 1, path, current =>
    if current.key ∈ path.map TypeDef.key then
      let cycle := path.dropWhile (·.key ≠ current.key)
      ⟨cycle.map TypeDef.name ++ [current.name], current.position⟩
    else
      match blocker? types ok current with
      | none => ⟨[current.name], current.position⟩
      | some next => follow types ok n (path ++ [current]) next

/-- Refuse types of which one has no finite value. -/
def check (types : List TypeDef) : Except CycleError Unit :=
  let ok := representable types
  match types.find? (·.key ∉ ok) with
  | none => .ok ()
  | some start => .error (follow types ok (types.length + 1) [] start)

end Representable

end Schemata
