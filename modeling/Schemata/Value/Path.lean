/-!
# Paths into values

A path leads from a root, named by a label, through fields and list items to a place inside a value.
-/

namespace Schemata

/-- A step into a value. -/
inductive PathStep where
  | field (name : String)
  | item (index : Nat)
deriving DecidableEq, Repr

def PathStep.text : PathStep → String
  | field name => "." ++ name
  | item index => "[" ++ toString index ++ "]"

/-- A root and the steps from it, outermost first. -/
structure Path where
  root : String
  steps : List PathStep
deriving DecidableEq, Repr

namespace Path

/-- The place of the root itself. -/
def ofRoot (root : String) : Path := ⟨root, []⟩

/-- The place of a field of what stands at a path. -/
def field (p : Path) (name : String) : Path := ⟨p.root, p.steps ++ [.field name]⟩

/-- The place of an item of the list that stands at a path. -/
def item (p : Path) (index : Nat) : Path := ⟨p.root, p.steps ++ [.item index]⟩

def text (p : Path) : String := p.root ++ String.join (p.steps.map PathStep.text)

end Path

end Schemata
