/-!
# File paths

Paths are texts with slashes between names. `resolve` makes a path absolute against another, `join`
puts one behind another, `parent` drops the last name and `relative` leads from one absolute path to
another. None of them looks at files: `.` and `..` are settled by name alone.
-/

namespace Schemata.FilePath

/-- Pieces of a text between slashes. -/
def splitChars : List Char → List (List Char)
  | [] => [[]]
  | c :: cs =>
    if c = '/' then [] :: splitChars cs
    else
      match splitChars cs with
      | [] => [[c]]
      | piece :: pieces => (c :: piece) :: pieces

/-- Names of a path, with empty ones where slashes stand side by side or at an end. -/
def split (path : String) : List String := (splitChars path.toList).map String.ofList

/-- Whether a path begins at the root. -/
def isAbsolute (path : String) : Bool := path.toList.head? = some '/'

/-- Add a name to settled names, last one first. Beyond the root of an absolute path there is
nothing; a relative path may lead above its base. -/
def settleName (absolute : Bool) (settled : List String) (name : String) : List String :=
  if name = "" || name = "." then settled
  else if name = ".." then
    match settled with
    | [] => if absolute then [] else [".."]
    | last :: before => if last = ".." then ".." :: settled else before
  else name :: settled

/-- Names without `.`, and without `..` where it can be settled. -/
def settle (absolute : Bool) (names : List String) : List String :=
  (names.foldl (settleName absolute) []).reverse

/-- The absolute path of names. -/
def absolute (names : List String) : String := "/" ++ "/".intercalate names

/-- Names of an absolute path. -/
def names (path : String) : List String := settle true (split path)

/-- The absolute path of a path that starts at a base, which is an absolute path. -/
def resolve (base path : String) : String :=
  if isAbsolute path then absolute (names path)
  else absolute (names (base ++ "/" ++ path))

/-- A name behind a path; an empty path leaves the name alone. -/
def join (path name : String) : String :=
  let full := if path = "" then name else path ++ "/" ++ name
  if isAbsolute full then absolute (names full)
  else "/".intercalate (settle false (split full))

/-- A path without its last name, `.` if it has only one. -/
def parent (path : String) : String :=
  let isName (c : Char) : Bool := c ≠ '/'
  let before := ((path.toList.reverse.dropWhile (!isName ·)).dropWhile isName).drop 1
  if before.isEmpty then (if isAbsolute path then "/" else ".") else String.ofList before.reverse

/-- The names that are left after a common beginning. -/
def dropCommon : List String → List String → List String × List String
  | a :: as, b :: bs => if a = b then dropCommon as bs else (a :: as, b :: bs)
  | as, bs => (as, bs)

/-- The way from one absolute path to another. -/
def relative (origin target : String) : String :=
  let (up, down) := dropCommon (names origin) (names target)
  "/".intercalate (up.map (fun _ => "..") ++ down)

end Schemata.FilePath
