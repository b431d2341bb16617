import Schemata.File.Path

/-!
# Files and directories

A disk holds directories and files by their place, the names from the root. Paths are followed name
by name from the working directory, and every name but the last must be a directory. Failures are
worded as operating systems word them.
-/

namespace Schemata

/-- What can be wrong with a path. -/
inductive FileFault where
  | missing
  | isDirectory
  | alreadyExists
  | notDirectory
deriving DecidableEq, Repr

namespace FileFault

/-- Short name of a fault. -/
def code : FileFault → String
  | missing => "ENOENT"
  | isDirectory => "EISDIR"
  | alreadyExists => "EEXIST"
  | notDirectory => "ENOTDIR"

def text : FileFault → String
  | missing => "no such file or directory"
  | isDirectory => "illegal operation on a directory"
  | alreadyExists => "file already exists"
  | notDirectory => "not a directory"

end FileFault

/-- A failed operation on files: what was wrong, the operation, and the path it was given. -/
structure FileError where
  fault : FileFault
  operation : String
  path : Option String
deriving DecidableEq, Repr

def FileError.message (e : FileError) : String :=
  let target := match e.path with
    | some p => " '" ++ p ++ "'"
    | none => ""
  e.fault.code ++ ": " ++ e.fault.text ++ ", " ++ e.operation ++ target

/-- What stands at a place. -/
inductive FileEntry where
  | directory
  | file (content : String)
deriving DecidableEq, Repr

/-- A place: the names that lead to it from the root. -/
abbrev Place := List String

/-- Directories and files, and the working directory. -/
structure Disk where
  current : Place
  entries : List (Place × FileEntry)
deriving DecidableEq, Repr

namespace Disk

/-- The working directory as a path. -/
def currentPath (d : Disk) : String := FilePath.absolute d.current

/-- An absolute path for a path that starts at the working directory. -/
def resolve (d : Disk) (path : String) : String := FilePath.resolve d.currentPath path

/-- An absolute path as it is shown, from the working directory on. -/
def relative (d : Disk) (path : String) : String := FilePath.relative d.currentPath path

/-- What stands at a place. The root is a directory. -/
def find? (d : Disk) (place : Place) : Option FileEntry :=
  if place = [] then some .directory else d.entries.lookup place

/-- Put something at a place. -/
def put (d : Disk) (place : Place) (entry : FileEntry) : Disk :=
  if place ∈ d.entries.map Prod.fst then
    { d with entries := d.entries.map fun e => if e.1 = place then (place, entry) else e }
  else { d with entries := d.entries ++ [(place, entry)] }

/-- Take away what stands at a place, and everything below it. -/
def erase (d : Disk) (place : Place) : Disk :=
  { d with entries := d.entries.filter fun e => !place.isPrefixOf e.1 }

/-- Follow names from a place. -/
def follow (d : Disk) : Place → List String → Except FileFault Place
  | place, [] => .ok place
  | place, name :: rest =>
    match d.find? place with
    | none => .error .missing
    | some (.file _) => .error .notDirectory
    | some .directory =>
      if name = "" || name = "." then d.follow place rest
      else if name = ".." then d.follow place.dropLast rest
      else if (d.find? (place ++ [name])).isSome then d.follow (place ++ [name]) rest
      else .error .missing

/-- The place where a path begins. -/
def origin (d : Disk) (path : String) : Place :=
  if FilePath.isAbsolute path then [] else d.current

/-- The place that a path leads to. -/
def locate (d : Disk) (path : String) : Except FileFault Place :=
  if path = "" then .error .missing else d.follow (d.origin path) (FilePath.split path)

/-- Whether a path leads to a file or directory. -/
def pathExists (d : Disk) (path : String) : Bool := (d.locate path).toOption.isSome

/-- The content of a file. -/
def read (d : Disk) (path : String) : Except FileError String :=
  match d.locate path with
  | .error fault => .error ⟨fault, "open", some path⟩
  | .ok place =>
    match d.find? place with
    | some (.file content) => .ok content
    | some .directory => .error ⟨.isDirectory, "read", none⟩
    | none => .error ⟨.missing, "open", some path⟩

/-- Write a file; its directory must be there. -/
def write (d : Disk) (path content : String) : Except FileError Disk :=
  let names := FilePath.split path
  let name := names.getLast?.getD ""
  let fail (fault : FileFault) : Except FileError Disk := .error ⟨fault, "open", some path⟩
  match d.follow (d.origin path) names.dropLast with
  | .error fault => fail fault
  | .ok directory =>
    match d.find? directory, d.find? (directory ++ [name]) with
    | some (.file _), _ => fail .notDirectory
    | _, some .directory => fail .isDirectory
    | _, _ =>
      if path = "" then fail .missing
      else if name = "" || name = "." || name = ".." then fail .isDirectory
      else .ok (d.put (directory ++ [name]) (.file content))

/-- Follow names from a directory, making directories that are missing. -/
def makeAlong (d : Disk) : Place → List String → Except FileFault Disk
  | _, [] => .ok d
  | place, name :: rest =>
    if name = "" || name = "." then d.makeAlong place rest
    else if name = ".." then d.makeAlong place.dropLast rest
    else
      match d.find? (place ++ [name]) with
      | some .directory => d.makeAlong (place ++ [name]) rest
      | some (.file _) =>
        .error (if rest.all (· = "") then .alreadyExists else .notDirectory)
      | none => (d.put (place ++ [name]) .directory).makeAlong (place ++ [name]) rest

/-- Make a directory and all above it that are missing. -/
def makeDirectories (d : Disk) (path : String) : Except FileError Disk :=
  if path = "" then .error ⟨.missing, "mkdir", some path⟩
  else
    match d.makeAlong (d.origin path) (FilePath.split path) with
    | .error fault => .error ⟨fault, "mkdir", some path⟩
    | .ok d' => .ok d'

/-- Put a file at a place, with all directories above it. -/
def place (d : Disk) (names : Place) (content : String) : Disk :=
  let above := (List.range names.length).map fun n => names.take n
  let d := above.foldl (fun d p => if (d.find? p).isSome then d else d.put p .directory) d
  d.put names (.file content)

end Disk

end Schemata
