import Schemata.Number.Numeral
import Schemata.Yaml

/-!
# Scalars of the core schema

A plain scalar is null, a truth value or a number if it is written like one, and otherwise a text.
Integers are decimal, octal after `0o` or hexadecimal after `0x`. A tag restricts a scalar to one
kind; a scalar that is not written like its tag is a text.
-/

namespace Schemata.Yaml

/-- The kinds of scalar that a tag can ask for. -/
inductive ScalarKind where
  | any
  | null
  | bool
  | int
  | float
  | text
deriving DecidableEq, Repr

/-- What the tags of the schema begin with. -/
def schemaTag (name : String) : String := "tag:yaml.org,2002:" ++ name

/-- The kind that a tag asks for; unknown tags stand for texts. -/
def ScalarKind.ofTag (tag : String) : ScalarKind :=
  if tag = schemaTag "null" then null
  else if tag = schemaTag "bool" then bool
  else if tag = schemaTag "int" then int
  else if tag = schemaTag "float" then float
  else text

/-- A null scalar. -/
def null? (s : String) : Option Yaml :=
  if s ∈ ["", "~", "null", "Null", "NULL"] then some .null else none

/-- A scalar that is a truth value. -/
def bool? (s : String) : Option Yaml :=
  if s ∈ ["true", "True", "TRUE"] then some (.bool true)
  else if s ∈ ["false", "False", "FALSE"] then some (.bool false)
  else none

/-- A sign and what follows it. -/
def signOf : List Char → Bool × List Char
  | '+' :: cs => (false, cs)
  | '-' :: cs => (true, cs)
  | cs => (false, cs)

/-- A scalar that is an integer. -/
def int? (s : String) : Option Yaml :=
  match s.toList with
  | '0' :: 'o' :: cs => (Number.natural? 8 cs).map fun n => .number (.ofRatio false n 1)
  | '0' :: 'x' :: cs => (Number.natural? 16 cs).map fun n => .number (.ofRatio false n 1)
  | cs =>
    let (negative, digits) := signOf cs
    (Number.natural? 10 digits).map fun n => .number (.ofRatio negative n 1)

/-- A scalar that is an infinity or no number. -/
def special? (s : String) : Option Yaml :=
  if s ∈ [".nan", ".NaN", ".NAN"] then some (.number .nan)
  else
    let (negative, body) := signOf s.toList
    if String.ofList body ∈ [".inf", ".Inf", ".INF"] then some (.number (.infinite negative))
    else none

/-- A scalar that is a decimal fraction or has an exponent. -/
def fraction? (s : String) : Option Yaml :=
  let (negative, body) := signOf s.toList
  let mantissa := body.takeWhile (!Number.isExponentMark ·)
  let hasPoint := mantissa.contains '.'
  let hasExponent := body.any Number.isExponentMark
  if hasPoint || hasExponent then (Number.decimal? negative body).map .number else none

/-- A scalar that is a number with a fraction, an exponent or no finite value. -/
def float? (s : String) : Option Yaml := (special? s).or (fraction? s)

/-- The datum of a plain scalar. -/
def ofPlain (s : String) : Yaml :=
  (((null? s).or (bool? s)).or ((int? s).or (float? s))).getD (.text s)

/-- The datum of a scalar of a kind. -/
def ofScalar (kind : ScalarKind) (s : String) : Yaml :=
  match kind with
  | .any => ofPlain s
  | .null => (null? s).getD (.text s)
  | .bool => (bool? s).getD (.text s)
  | .int => (int? s).getD (.text s)
  | .float => (float? s).getD (.text s)
  | .text => .text s

end Schemata.Yaml
