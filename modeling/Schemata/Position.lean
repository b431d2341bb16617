import Schemata.Text.Units

/-!
# Positions in a source text

A position is a line and a column, both counted from one; columns count 16-bit units. Trees that do
not come from a text may carry any integers.
-/

namespace Schemata

/-- A place in a source text. -/
structure Position where
  line : Int
  column : Int
deriving DecidableEq, Repr, Inhabited

namespace Position

/-- The beginning of a text. -/
def start : Position := ⟨1, 1⟩

/-- The position after a character that stands at `p`. -/
def after (p : Position) (c : Char) : Position :=
  if c = '\n' then ⟨p.line + 1, 1⟩ else ⟨p.line, p.column + Text.width c⟩

end Position

end Schemata
