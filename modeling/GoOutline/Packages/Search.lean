import GoOutline.Packages.Basic
import GoOutline.Syntax.Parser

/-!
Searching a disk for a package, in the order in which a build looks for it. How the package clause of
a file is found is up to the front end.
-/

namespace GoOutline

/-- Where packages are looked for. -/
structure Workspace where
  goroot : Option String
  gopath : List String
  cwd : String
deriving DecidableEq, Repr

namespace Workspace

/-- A path that starts at the working directory. -/
def isLocal (path : String) : Bool :=
  "./".toList.isPrefixOf path.toList || "../".toList.isPrefixOf path.toList

/-- The folders that can hold a package, the first choice first. -/
def candidates (w : Workspace) (path : String) : List String :=
  if isLocal path then [Path.join w.cwd path]
  else
    (w.goroot.toList.map fun root => Path.join (Path.join root "src") path) ++
    ((Path.ancestors w.cwd).map fun folder => Path.join (Path.join folder "vendor") path) ++
    (w.gopath.map fun root => Path.join (Path.join root "src") path)

/-- A file that takes part in a build. -/
def isBuildFile (name : String) : Bool :=
  Path.hasExtension "go" name && !("_test.go".toList.isSuffixOf name.toList)

section Search

variable (read : Syntax.ClauseReader) (d : Disk)

/-- The first package name that one of some files claims. -/
def packageOf (folder : List String) : List String → Except ReadError (Option String)
  | [] => .ok none
  | name :: rest =>
    match d.readAt (folder ++ [name]) with
    | .error e => .error e
    | .ok text =>
      match read.packageName? text with
      | some package => .ok (some package)
      | none => packageOf folder rest

/-- The name of the package in a folder. -/
def packageIn (folder : List String) : Except ReadError (Option String) :=
  packageOf read d folder ((d.listing folder).filter isBuildFile)

/-- The first folder that holds a package. -/
def firstOf : List String → Except PackageError Package
  | [] => .error (.unresolved "package not found in GOROOT, vendor or GOPATH")
  | dir :: rest =>
    match d.place dir with
    | .error _ => firstOf rest
    | .ok folder =>
      if d.isFolder folder then
        match packageIn read d folder with
        | .error e => .error (.unreadable e)
        | .ok (some name) => .ok ⟨dir, name⟩
        | .ok none => firstOf rest
      else firstOf rest

end Search

def find (w : Workspace) (read : Syntax.ClauseReader) (d : Disk) : Finder := fun path =>
  firstOf read d (w.candidates path)

end Workspace

end GoOutline
