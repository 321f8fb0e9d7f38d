/-!
Files and folders as a program finds them on a disk, and the paths that lead to them. A path is a
text; joining paths joins texts, and only looking something up gives the dots and slashes in a path
their meaning.
-/

namespace GoOutline

namespace Path

/-- The second path, seen from the first one. -/
def join (base path : String) : String :=
  let b := base.toList
  if path.toList.head? == some '/' then path
  else if b.isEmpty || b.getLast? == some '/' then base ++ path
  else base ++ "/" ++ path

/-- A reversed path without the slashes and single dots at its end. -/
def dropEnd : List Char → List Char
  | '/' :: s => dropEnd s
  | '.' :: '/' :: s => dropEnd ('/' :: s)
  | s => s
termination_by s => s.length

/-- The path of the folder around a file or folder, none for the root. -/
def parent? (path : String) : Option String :=
  let reversed := dropEnd path.toList.reverse
  if reversed.isEmpty then none
  else
    let above := reversed.dropWhile (· != '/')
    let up := dropEnd above
    if up.isEmpty && !above.isEmpty then some "/" else some (String.ofList up.reverse)

def ancestorsUpTo : Nat → String → List String
  | 0, _ => []
  | n + 1, path =>
    path :: match parent? path with
      | some up => ancestorsUpTo n up
      | none => []

/-- A path and those of the folders around it, the nearest first. -/
def ancestors (path : String) : List String := ancestorsUpTo (path.toList.length + 1) path

def components (path : List Char) : List (List Char) := path.splitOn '/'

/-- The names that a path goes through, as far as its text tells. -/
def names (start : List String) (path : String) : List String :=
  let start := if path.toList.head? == some '/' then [] else start
  ((components path.toList).map String.ofList).foldl (fun names name =>
    if name == "" || name == "." then names
    else if name == ".." then names.dropLast
    else names ++ [name]) start

/-- The name of a file without the last dot and what follows, and the part behind that dot. A dot in
front starts no such part. -/
def hasExtension (ext name : String) : Bool :=
  match (name.toList.splitOn '.').reverse with
  | last :: stem :: more => String.ofList last == ext && !(stem.isEmpty && more.isEmpty)
  | _ => false

end Path

/-- What stands at a path. -/
inductive Node where
  | text (content : List Char)
  /-- A file that is no UTF-8 text. -/
  | binary
  | folder
deriving DecidableEq, Repr

inductive ReadError where
  | missing
  | folder
  /-- A file stands where the path goes on. -/
  | notFolder
  | notText
deriving DecidableEq, Repr

def ReadError.message : ReadError → String
  | .missing => "No such file or directory (os error 2)"
  | .folder => "Is a directory (os error 21)"
  | .notFolder => "Not a directory (os error 20)"
  | .notText => "stream did not contain valid UTF-8"

/-- What is below a root folder, by the names that lead there. The folders around something need not
be listed. -/
structure Disk where
  root : String
  /-- Where paths start that do not start at the root. -/
  cwd : List String
  nodes : List (List String × Node)
deriving Repr

namespace Disk

def isFolder (d : Disk) (place : List String) : Bool :=
  place.isEmpty || d.nodes.any fun (names, node) =>
    (place.isPrefixOf names && place.length < names.length) || (names == place && node == .folder)

def node? (d : Disk) (place : List String) : Option Node :=
  match d.nodes.lookup place with
  | some node => some node
  | none => if d.isFolder place then some .folder else none

/-- Goes down a path, where only a folder can be left in any direction. -/
def walk (d : Disk) (place : List String) : List String → Except ReadError (List String)
  | [] => .ok place
  | name :: rest =>
    match d.node? place with
    | some .folder =>
      if name == "" || name == "." then d.walk place rest
      else if name == ".." then
        if place.isEmpty then .error .missing else d.walk place.dropLast rest
      else d.walk (place ++ [name]) rest
    | some _ => .error .notFolder
    | none => .error .missing

/-- The names that lead to a path from the root folder. -/
def place (d : Disk) (path : String) : Except ReadError (List String) :=
  let names (s : List Char) := (Path.components s).map String.ofList
  match d.root.toList.isPrefixOf? path.toList with
  | some ('/' :: below) => d.walk [] (names below)
  | some [] => .ok []
  | _ =>
    match path.toList with
    | [] | '/' :: _ => .error .missing
    | s => d.walk d.cwd (names s)

/-- Whether there is something at a path. -/
def has (d : Disk) (path : String) : Bool :=
  match d.place path with
  | .ok place => (d.node? place).isSome
  | .error _ => false

def readAt (d : Disk) (place : List String) : Except ReadError (List Char) :=
  match d.node? place with
  | some (.text content) => .ok content
  | some .binary => .error .notText
  | some .folder => .error .folder
  | none => .error .missing

def read (d : Disk) (path : String) : Except ReadError (List Char) := d.place path >>= d.readAt

/-- The names of what is right inside a folder, in order. -/
def listing (d : Disk) (folder : List String) : List String :=
  let names := d.nodes.filterMap fun (names, _) =>
    (folder.isPrefixOf? names).bind List.head?
  names.eraseDups.mergeSort fun a b => decide (a ≤ b)

/-- Puts something at a place below the root folder. -/
def put (d : Disk) (place : List String) (node : Node) : Disk :=
  { d with nodes := d.nodes.filter (·.1 != place) ++ [(place, node)] }

/-- Puts a text at a path, if the path leads anywhere. -/
def write (d : Disk) (path : String) (content : List Char) : Disk :=
  match d.place path with
  | .ok place => d.put place (.text content)
  | .error _ => d

end Disk

end GoOutline
