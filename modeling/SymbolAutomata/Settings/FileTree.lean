/-
  SymbolAutomata/Settings/FileTree.lean
  =====================================
  **The files that a run may see**: texts by their paths.

  A path is looked up name by name, and every name but the last has to be a
  directory. Paths start at the working directory, whose parent has the name
  `..`, or at the directory named `/`.
-/
import SymbolAutomata.Settings.Fault

namespace SymbolAutomata.Settings

/-- Texts by their paths, and the directories that need not hold any. -/
structure FileTree where
  files : List (List String × String)
  directories : List (List String)

namespace FileTree

/-- What a path leads to. -/
inductive Entry where
  | file (text : String)
  | directory
deriving DecidableEq

/-- What stands at a path given by its names. -/
def entry? (t : FileTree) (path : List String) : Option Entry :=
  match t.files.lookup path with
  | some text => some (.file text)
  | none =>
    let holdsMore (p : List String) : Bool := path.isPrefixOf p
    if path.isEmpty || t.directories.any holdsMore || t.files.any (holdsMore ·.1) then
      some .directory
    else none

def parent (here : List String) : List String :=
  if here = ["/"] then here
  else if here.isEmpty || here.getLast? = some ".." then here ++ [".."]
  else here.dropLast

/-- The place that a name leads to from a directory. -/
def enter (here : List String) (name : String) : List String :=
  if name = "" || name = "." then here
  else if name = ".." then parent here
  else here ++ [name]

def origin (path : String) : List String :=
  if path.toList.head? = some '/' then ["/"] else []

/-- The place that a path names if all its names but the last are directories. -/
def place (path : String) : List String := (path.splitOn "/").foldl enter (origin path)

/-- Follows names from a directory. -/
def follow (t : FileTree) (here : List String) : List String → Except FileFault (List String)
  | [] => .ok here
  | name :: rest =>
    match t.entry? here with
    | none => .error .missing
    | some (.file _) => .error .notDirectory
    | some .directory => follow t (enter here name) rest

/-- The place that a path names, whether or not anything stands there. -/
def resolve (t : FileTree) (path : String) : Except FileFault (List String) :=
  if path.isEmpty then .error .missing else t.follow (origin path) (path.splitOn "/")

/-- What a path leads to, if it leads anywhere. -/
def find? (t : FileTree) (path : String) : Option Entry :=
  match t.resolve path with
  | .ok names => t.entry? names
  | .error _ => none

def read (t : FileTree) (path : String) : Except FileFault String := do
  match t.entry? (← t.resolve path) with
  | some (.file text) => .ok text
  | some .directory => .error .isDirectory
  | none => .error .missing

/-- Writes a file, over the one that may be there. -/
def write (t : FileTree) (path text : String) : Except FileFault FileTree := do
  let names ← t.resolve path
  match t.entry? names with
  | some .directory => .error .isDirectory
  | _ =>
    match t.entry? names.dropLast with
    | some .directory =>
      .ok { t with files := (names, text) :: t.files.filter (·.1 ≠ names) }
    | some (.file _) => .error .notDirectory
    | none => .error .missing

end FileTree

end SymbolAutomata.Settings
