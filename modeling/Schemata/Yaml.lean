import Schemata.Number.Shortest
import Schemata.Position
import Schemata.Record

/-!
# Plain data

What a YAML document says: nothing, scalars, lists and mappings. Keys of mappings are texts; a key
that is another datum is known by its text.

How a document is read is left open: whatever reads configurations takes a `Yaml.Reader`.
-/

namespace Schemata

/-- Plain data of a document. The entries of a mapping are in record order. -/
inductive Yaml where
  | null
  | bool (value : Bool)
  | number (value : Number)
  | text (value : String)
  | list (items : List Yaml)
  | mapping (entries : List (String × Yaml))
deriving Repr, Inhabited

namespace Yaml

/-- Whether two keys are the same scalar. Lists and mappings are never the same key. -/
def sameKey : Yaml → Yaml → Bool
  | null, null => true
  | bool a, bool b => a = b
  | number a, number b =>
    match a.toInt?, b.toInt? with
    | some m, some n => m = n
    | none, none => a = b && a ≠ .nan
    | _, _ => false
  | text a, text b => a = b
  | _, _ => false

mutual

/-- Text of a datum that is a key; at the top nothing has no text. -/
def keyText : Yaml → String
  | null => "null"
  | bool b => if b then "true" else "false"
  | number x => x.text
  | text t => t
  | list [] => "[]"
  | list items => "[ " ++ keyTexts items ++ " ]"
  | mapping [] => "\x7b\x7d"
  | mapping entries => "\x7b " ++ entryTexts entries ++ " \x7d"

/-- Texts of items, separated by commas. -/
def keyTexts : List Yaml → String
  | [] => ""
  | [d] => keyText d
  | d :: ds => keyText d ++ ", " ++ keyTexts ds

/-- Texts of entries, separated by commas. -/
def entryTexts : List (String × Yaml) → String
  | [] => ""
  | [(k, d)] => k ++ ": " ++ keyText d
  | (k, d) :: es => k ++ ": " ++ keyText d ++ ", " ++ entryTexts es

end

/-- The property name that a key stands for. -/
def key : Yaml → String
  | null => ""
  | d => keyText d

/-- The mapping of entries given one after the other. -/
def ofEntries (entries : List (Yaml × Yaml)) : Yaml :=
  mapping (Record.ofList (entries.map fun e => (key e.1, e.2))).entries

/-- What a key of a mapping holds. -/
def find? (entries : List (String × Yaml)) (key : String) : Option Yaml :=
  (entries.find? (·.1 = key)).map Prod.snd

/-- Why a text gives no data: it is no document, for a reason and at a place that the reader may
name, or the reader fails in a way of its own. -/
inductive ReadError where
  | malformed (reason : String) (place : Option Position)
  | raised (message : String)
deriving DecidableEq, Repr

/-- A reader of documents: the data of a text, or why there are none. -/
abbrev Reader := String → Except ReadError Yaml

end Yaml

end Schemata
