/-!
# Ordered records

A record holds one entry for each key. Keys that are natural numbers in plain decimal form come
first, in ascending order; the others stand in the order in which they were first given. Giving a
key again keeps its place and changes what it holds.
-/

namespace Schemata

/-- Keys with what they hold, in order and without repetition. -/
structure Record (α : Type) where
  entries : List (String × α)
deriving DecidableEq, Repr, Inhabited

namespace Record

variable {α : Type}

/-- The index that a key is, if it is a natural number below `2 ^ 32 - 1` written without leading
zeros. -/
def index? (key : String) : Option Nat :=
  match key.toList with
  | ['0'] => some 0
  | '0' :: _ => none
  | [] => none
  | cs =>
    if cs.all Char.isDigit then
      let n := cs.foldl (fun n c => 10 * n + (c.toNat - 48)) 0
      if n < Nat.pow 2 32 - 1 then some n else none
    else none

/-- Whether a new key goes before a present one. -/
def precedes (key other : String) : Bool :=
  match index? key, index? other with
  | some a, some b => a < b
  | some _, none => true
  | none, _ => false

/-- Place an entry with a new key. -/
def place (key : String) (value : α) : List (String × α) → List (String × α)
  | [] => [(key, value)]
  | e :: es => if precedes key e.1 then (key, value) :: e :: es else e :: place key value es

def empty : Record α := ⟨[]⟩

def keys (r : Record α) : List String := r.entries.map Prod.fst

/-- What a key holds. -/
def get? (r : Record α) (key : String) : Option α :=
  (r.entries.find? (·.1 = key)).map Prod.snd

/-- Give a key. -/
def insert (r : Record α) (key : String) (value : α) : Record α :=
  if key ∈ r.keys then
    ⟨r.entries.map fun e => if e.1 = key then (key, value) else e⟩
  else ⟨place key value r.entries⟩

/-- The record of entries given one after the other. -/
def ofList (entries : List (String × α)) : Record α :=
  entries.foldl (fun r e => r.insert e.1 e.2) empty

end Record

end Schemata
